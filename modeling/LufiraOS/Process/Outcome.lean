import LufiraOS.Process.Effects

/-!
# The effect of each step

What is left of a step besides waking and switching is little: one process is
terminated or stopped or goes on, the current one comes to another place, terminated
ones are removed.  `StepEffect` lists these cases once; what is proved about states
and about waiting is read off it.

All of this is under a condition.  The pointers to waiting processes are followed
without a look at the state of the process, so a process must not be terminated
while one of them leads to it.
-/

namespace Scheduler

open State Option

namespace State

variable {s s' s₀ s₁ s₂ : State} {l : List Nat} {a : Nat} {b : Bool} {f : Node → Node}
  {drop : Nat → Prop} {P : Node → Node → Prop} {w : Nat}

/-! ## What a step aims at -/

/-- The slot that a process waits for. -/
def waitsFor : Cont → Option Slot
  | .slot w => some w
  | _ => none

/-- A pointer of the kernel records the process as the one that waits. -/
def Recorded (s : State) (a : Nat) : Prop :=
  ∃ w ∈ waitsFor (s.node a).cont, s.slots w = some a

instance (s : State) (a : Nat) : Decidable (s.Recorded a) :=
  inferInstanceAs (Decidable (∃ w ∈ waitsFor (s.node a).cont, s.slots w = some a))

/-- The process that a signal terminates, and its status. -/
def killed (s : State) (pid sig : Nat) : Option (Nat × Int) :=
  match s.findByPid pid with
  | none => none
  | some a =>
    if a = s.idle ∨ Caught (s.node a) sig ∨ ¬ Fatal sig ∨ (s.node a).state = .terminated then none
    else some (a, 128 + sig)

/-- The stopped process that a signal lets go on. -/
def letGo (s : State) (pid sig : Nat) : Option Nat :=
  if sig = sigcont then (s.findByPid pid).filter fun a => (s.node a).state = .stopped else none

/-- The alarm of a process is due. -/
def Due (s : State) (a : Nat) : Prop := (s.node a).alarmTick ≠ 0 ∧ (s.node a).alarmTick ≤ s.ticks

instance (s : State) (a : Nat) : Decidable (s.Due a) := inferInstanceAs (Decidable (_ ∧ _))

/-- The process that a step terminates, and its status. -/
def ended (s : State) (e : Step) : Option (Nat × Int) :=
  match (s.node s.current).cont, e with
  | .user, .exit code _ => if s.current = s.idle then none else some (s.current, code)
  | .user, .signal pid sig _ => s.killed pid sig
  | .user, .timerVisit a _ =>
    if a ∈ s.ring ∧ s.Due a then s.killed (s.node a).pid sigalrm else none
  | _, _ => none

/-- The process that a step stops. -/
def halted (s : State) (e : Step) : Option Nat :=
  match (s.node s.current).cont, e with
  | .user, .signal pid sig _ =>
    if sig = sigstop then
      (s.findByPid pid).filter fun a => a ≠ s.idle ∧ (s.node a).state ≠ .terminated
    else none
  | _, _ => none

/-- The stopped process that a step lets go on. -/
def continued (s : State) (e : Step) : Option Nat :=
  match (s.node s.current).cont, e with
  | .user, .signal pid sig _ => s.letGo pid sig
  | _, _ => none

/-- **The condition on a step.**  A process that it terminates is recorded nowhere but
at interrupt lines, which forget it, and (if `b` is set) a process that it stops is
recorded nowhere. -/
def Clear (b : Bool) (s : State) (e : Step) : Prop :=
  (∀ r ∈ s.ended e, ¬ (s.releaseIrqs r.1).Recorded r.1) ∧
    (b = true → ∀ a ∈ s.halted e, ¬ s.Recorded a)

instance (b : Bool) (s : State) (e : Step) : Decidable (Clear b s e) :=
  inferInstanceAs (Decidable (_ ∧ _))

/-- The pointers are in order, and neither the idle process nor the current one is
stopped or terminated. -/
structure Settled (b : Bool) (s : State) : Prop where
  hooked : Hooked b s
  idle : ¬ Lasts b (s.node s.idle).state
  current : ¬ Lasts b (s.node s.current).state

theorem Settled.kept (h : Settled b s) (hring : Ringed s l) (hk : Kept b s₀ s s')
    (hcur : s'.current = s.current) : Settled b s' where
  hooked := h.hooked.kept hk
  idle := by
    rw [hk.idle]
    exact hk.live hring.idle_isSome h.idle
  current := by
    rw [hcur]
    exact hk.live hring.current_isSome h.current

/-! ## Terminating -/

/-- The process is terminated with this status. -/
def Died (code : Int) (n n' : Node) : Prop :=
  n.state ≠ .terminated ∧ n'.state = .terminated ∧ n'.exitCode = code ∧ n'.pid = n.pid ∧
    n'.ppid = n.ppid

theorem Died.kept_right {code : Int} (n n₁ n₂ : Node) (h : Died code n n₁)
    (hk : NodeKept b n₁ n₂) : Died code n n₂ := by
  obtain ⟨hn, hterm, hcode, hpid, hppid⟩ := h
  exact ⟨hn, (hk.lasts (lasts_of_terminated hterm)).trans hterm, hk.exitCode.trans hcode,
    hk.pid.trans hpid,
    hk.ppid.trans hppid⟩

theorem Died.kept_left {code : Int} (n n₁ n₂ : Node) (hk : NodeKept b n n₁)
    (h : Died code n₁ n₂) : Died code n n₂ := by
  obtain ⟨hn, hterm, hcode, hpid, hppid⟩ := h
  exact ⟨fun heq => hn (hk.terminated_iff.2 heq), hterm, hcode, hpid.trans hk.pid,
    hppid.trans hk.ppid⟩

theorem slots_releaseIrqs {w : Slot} {x : Nat} (h : (s.releaseIrqs a).slots w = some x) :
    s.slots w = some x := by
  unfold releaseIrqs at h
  dsimp only at h
  split at h
  · split at h
    · cases h
    · exact h
  · exact h

/-- A process that is not recorded elsewhere is recorded nowhere once its interrupt
lines are released. -/
theorem Hooked.slots_mark (h : Hooked b s) (hfree : ¬ (s.releaseIrqs a).Recorded a) (code : Int)
    (w : Slot) : (s.mark a code).slots w ≠ some a := by
  intro hw
  have hw' : (s.releaseIrqs a).slots w = some a := hw
  refine hfree ?_
  have hcont : ((s.releaseIrqs a).node a).cont = .slot w := (h w a (slots_releaseIrqs hw')).1
  exact ⟨w, by rw [hcont]; rfl, hw'⟩

theorem Change.mark (h : Hooked b s) (ha : (s.node a).state ≠ .terminated)
    (hfree : ¬ (s.releaseIrqs a).Recorded a) (code : Int) :
    Change b a (fun _ => False) (Died code) s₀ s (s.mark a code) := by
  refine .modify (f := fun n => { n with exitCode := code, state := .terminated })
    (fun n hn => ?_) _ (fun _ _ _ => slots_releaseIrqs) fun w hw => ?_
  · rw [node, hn] at ha
    exact ⟨ha, rfl, rfl, rfl, rfl⟩
  · exact absurd hw (h.slots_mark hfree code w)

/-- Until the parent is looked for. -/
theorem Ringed.change_terminate (h : Ringed s l) (hset : Settled b s)
    (hsome : (s.nodes a).isSome) (hidle : a ≠ s.idle) (ha : (s.node a).state ≠ .terminated)
    (hfree : ¬ (s.releaseIrqs a).Recorded a) (code : Int) (sp : Spawn) :
    Change b a (fun _ => False) (Died code) s s (s.terminate a code sp) := by
  obtain ⟨l', -, hgrown⟩ := h.terminate hidle code sp
  have hkept : Kept b s (s.mark a code) (s.terminate a code sp) := by
    have hpid := field_modify (f := fun n => { n with exitCode := code, state := .terminated })
      (g := Node.pid) (fun _ => rfl) s a s.current
    exact hgrown.kept.base rfl hpid.symm
  exact (Change.mark hset.hooked ha hfree code).kept_right hkept Died.kept_right hsome

theorem findWaitingParent_blocked {child : Node}
    (hw : s.findWaitingParent child = some w) : (s.node w).state = .blocked := by
  unfold findWaitingParent at hw
  split at hw
  · cases hw
  have hp := List.find?_some hw
  simp only [decide_eq_true_eq] at hp
  exact hp.2.1

theorem Kept.wakeParent (hw : (s.node w).state = .blocked) : Kept b s₀ s (s.wakeParent w) := by
  refine .modify fun n hn => ?_
  rw [State.node, hn] at hw
  have hw' : n.state = .blocked := hw
  exact .of_live rfl rfl rfl rfl (by simp [hw', Lasts]) (.inl rfl)

/-- The processor goes to the parent. -/
theorem Ringed.kept_switch_parent (h : Ringed s l) {child : Node}
    (hw : s.findWaitingParent child = some w) :
    Kept b s₀ s ((s.wakeParent w).switchToProcess w) ∧
      Awake b ((s.wakeParent w).switchToProcess w) := by
  have hblocked := findWaitingParent_blocked hw
  have hwoken : Kept b s₀ s (s.wakeParent w) := .wakeParent hblocked
  have hsome := h.isSome_of_findWaitingParent hw
  have hsome' : ((s.wakeParent w).nodes w).isSome := by
    rw [(Quiet.wakeParent _ w).isSome]
    exact hsome
  have hlive : ¬ Lasts b (s.node w).state := by simp [hblocked, Lasts]
  exact ⟨hwoken.trans (.switchToProcess hsome' (hwoken.live hsome hlive)),
    live_switchToProcess hsome'⟩

theorem Change.idle_live (h : Change b a drop P s₀ s s') (hring : Ringed s l) (hidle : a ≠ s.idle)
    (hset : Settled b s) : ¬ Lasts b (s'.node s'.idle).state := by
  rw [h.idle]
  exact (h.node_kept hidle.symm hring.idle_isSome hset.idle).live hset.idle

/-- **`process_exit`.** -/
theorem Ringed.change_processExit (h : Ringed s l) (hset : Settled b s)
    (hcont : (s.node s.current).cont = .user) (hidle : s.current ≠ s.idle) (code : Int)
    (sp : Spawn) :
    Change b s.current (fun _ => False) (Died code) s s (s.processExit code sp) ∧
      Awake b (s.processExit code sp) := by
  have hterm : (s.node s.current).state ≠ .terminated := fun heq =>
    hset.current (lasts_of_terminated heq)
  have hfree : ¬ (s.releaseIrqs s.current).Recorded s.current := by
    have hcont' : ((s.releaseIrqs s.current).node s.current).cont = .user := hcont
    rintro ⟨w, hw, -⟩
    rw [hcont'] at hw
    cases hw
  have hchange := h.change_terminate hset h.current_isSome hidle hterm hfree code sp
  obtain ⟨l', hring', -⟩ := h.terminate hidle code sp
  have hidle' := hchange.idle_live h hidle hset
  unfold processExit
  dsimp only
  split
  · next w hw =>
    obtain ⟨hkept, hlive⟩ := hring'.kept_switch_parent hw
    exact ⟨hchange.kept_right hkept Died.kept_right h.current_isSome, hlive⟩
  · exact ⟨hchange.kept_right (.schedule hring' hidle') Died.kept_right h.current_isSome,
      hring'.live_schedule hidle'⟩

/-- **`terminate_process_by_signal`.** -/
theorem Ringed.change_terminateBySignal (h : Ringed s l) (hset : Settled b s)
    (hsome : (s.nodes a).isSome) (hidle : a ≠ s.idle) (ha : (s.node a).state ≠ .terminated)
    (hfree : ¬ (s.releaseIrqs a).Recorded a) (sig : Nat) (sp : Spawn) :
    Change b a (fun _ => False) (Died (128 + sig)) s s (s.terminateBySignal a sig sp) ∧
      Awake b (s.terminateBySignal a sig sp) := by
  have hchange := h.change_terminate hset hsome hidle ha hfree (128 + sig) sp
  obtain ⟨l', hring', hgrown⟩ := h.terminate hidle (128 + sig) sp
  set t := s.terminate a (128 + sig) sp with ht
  have hidle' := hchange.idle_live h hidle hset
  have hcur : t.current = s.current := hgrown.current
  have hstays : a ≠ t.current → ¬ Lasts b (t.node s.current).state := by
    intro hne
    exact (hchange.node_kept (hcur ▸ hne.symm) h.current_isSome hset.current).live hset.current
  unfold terminateBySignal
  rw [if_neg ha, ← ht]
  dsimp only
  split
  · next w hw =>
    split
    · obtain ⟨hkept, hlive⟩ := hring'.kept_switch_parent hw
      exact ⟨hchange.kept_right hkept Died.kept_right hsome, hlive⟩
    · next hne =>
      have hwoken : Kept b s t (t.wakeParent w) := .wakeParent (findWaitingParent_blocked hw)
      refine ⟨hchange.kept_right hwoken Died.kept_right hsome, ?_⟩
      exact hwoken.live hring'.current_isSome (hcur.symm ▸ hstays hne)
  split
  · exact ⟨hchange.kept_right (.schedule hring' hidle') Died.kept_right hsome,
      hring'.live_schedule hidle'⟩
  · next hne => exact ⟨hchange, by rw [Awake, hcur]; exact hstays hne⟩

/-! ## Signals -/

/-- The process is stopped. -/
def Stopped (n n' : Node) : Prop := n.state ≠ .terminated ∧ n'.state = .stopped

/-- The process is no longer stopped. -/
def Resumed (n n' : Node) : Prop := n.state = .stopped ∧ n'.state = .ready

/-- What becomes of the processes: `o` is the one that is terminated and its status,
`c` the one that was stopped and goes on. -/
inductive Effect (b : Bool) (o : Option (Nat × Int)) (c : Option Nat) (s s' : State) : Prop
  | kept (ho : o = none) (h : Kept b s s s')
  | ended {a : Nat} {code : Int} (ho : o = some (a, code)) (hsome : (s.nodes a).isSome)
      (hidle : a ≠ s.idle) (h : Change b a (fun _ => False) (Died code) s s s')
  | stopped {a : Nat} (hb : b = true) (ho : o = none) (hsome : (s.nodes a).isSome)
      (hidle : a ≠ s.idle) (h : Change b a (fun _ => False) Stopped s s s')
  | continued {a : Nat} (hb : b = true) (ho : o = none) (hc : c = some a)
      (hsome : (s.nodes a).isSome) (h : Change b a (fun _ => False) Resumed s s s')

theorem Stopped.kept_right (hb : b = true) (n n₁ n₂ : Node) (h : Stopped n n₁)
    (hk : NodeKept b n₁ n₂) : Stopped n n₂ :=
  ⟨h.1, (hk.lasts (by rw [h.2]; exact hb)).trans h.2⟩

/-- Something is woken before. -/
theorem Effect.kept_left {o : Option (Nat × Int)} {c : Option Nat} (hk : Kept b s s s₁)
    (hpid : s₁.nextPid = s.nextPid)
    (hppid : (s₁.node s₁.current).pid = (s.node s.current).pid)
    (hsome : ∀ x, (s₁.nodes x).isSome = (s.nodes x).isSome) (h : Effect b o c s₁ s') :
    Effect b o c s s' := by
  cases h with
  | kept ho h => exact .kept ho (hk.trans (h.base hpid.symm hppid.symm))
  | ended ho ha hidle h =>
    rw [hsome] at ha
    exact .ended ho ha (hk.idle ▸ hidle)
      (.kept_left hk (h.base hpid.symm hppid.symm) Died.kept_left ha)
  | stopped hb ho ha hidle h =>
    rw [hsome] at ha
    refine .stopped hb ho ha (hk.idle ▸ hidle)
      (.kept_left hk (h.base hpid.symm hppid.symm) (fun n n₁ n₂ hkept hp => ⟨?_, hp.2⟩) ha)
    exact fun heq => hp.1 (hkept.terminated_iff.2 heq)
  | continued hb ho hc ha h =>
    rw [hsome] at ha
    refine .continued hb ho hc ha
      (.kept_left hk (h.base hpid.symm hppid.symm) (fun n n₁ n₂ hkept hp => ⟨?_, hp.2⟩) ha)
    by_cases hl : Lasts b n.state
    · rw [← hkept.lasts hl]
      exact hp.1
    refine absurd ?_ (hkept.live hl)
    rw [hp.1]
    exact hb

theorem Ringed.findByPid_isSome (h : Ringed s l) {pid : Nat} (ha : s.findByPid pid = some a) :
    (s.nodes a).isSome := by
  have hmem := List.mem_of_find?_eq_some ha
  rw [h.ring_eq] at hmem
  exact (h.isSome a).2 hmem

theorem NodeKept.record (n : Node) (sig : Nat) : NodeKept b n (record n sig) := by
  refine ⟨rfl, rfl, rfl, rfl, fun hl => ?_, fun hl => ?_, fun hl => ?_⟩
  · simp only [State.record]
    rw [if_neg]
    rintro (heq | heq) <;> simp [heq, Lasts] at hl
  · simp only [State.record]
    split
    · exact id
    · exact hl
  simp only [State.record]
  rw [if_neg (fun heq => heq.elim hl.1 hl.2)]
  exact hl

/-- `SIGSTOP`. -/
theorem Ringed.effect_stop (h : Ringed s l) (hset : Settled b s) (hsome : (s.nodes a).isSome)
    (hidle : a ≠ s.idle) (hterm : (s.node a).state ≠ .terminated)
    (hfree : b = true → ¬ s.Recorded a) {c : Option Nat}
    (hs' : s' = if a = s.current then (s.setState a .stopped).schedule else s.setState a .stopped) :
    Effect b none c s s' ∧ Awake b s' := by
  have hring : Ringed (s.setState a .stopped) l := h.quiet (.setState s a _ fun _ => by simp)
  have hidle' : ¬ Lasts b ((s.setState a .stopped).node (s.setState a .stopped).idle).state := by
    show ¬ Lasts b ((s.setState a .stopped).node s.idle).state
    rw [setState, node_modify_of_ne hidle.symm]
    exact hset.idle
  have hafter : Kept b s (s.setState a .stopped) s' := by
    rw [hs']
    split
    · exact .schedule hring hidle'
    · exact .refl _
  refine ⟨?_, ?_⟩
  · cases b with
    | true =>
      refine .stopped rfl rfl hsome hidle
        (.kept_right ?_ hafter (.kept_right rfl) hsome)
      refine .modify (f := fun n => { n with state := .stopped }) (fun n hn => ?_) s.slots
        (fun _ _ _ => id) fun w hw => ?_
      · rw [node, hn] at hterm
        exact ⟨hterm, rfl⟩
      · exact absurd ⟨w, by rw [(hset.hooked w a hw).1]; rfl, hw⟩ (hfree rfl)
    | false =>
      refine .kept rfl (.trans (.modify fun n hn => ?_) hafter)
      rw [node, hn] at hterm
      refine ⟨rfl, rfl, rfl, rfl, fun hl => ?_, fun _ => by simp [Lasts], fun _ => by simp⟩
      cases hst : n.state with
      | terminated => exact absurd hst hterm
      | _ => simp [hst, Lasts] at hl
  rw [hs']
  split
  · exact hring.live_schedule hidle'
  · next hne =>
    show ¬ Lasts b ((s.setState a .stopped).node s.current).state
    rw [setState, node_modify_of_ne (Ne.symm hne)]
    exact hset.current

/-- `SIGCONT`. -/
theorem Settled.effect_continue (hset : Settled b s) (hsome : (s.nodes a).isSome)
    (hst : (s.node a).state = .stopped) :
    Effect b none (some a) s (s.setState a .ready) ∧ Awake b (s.setState a .ready) := by
  refine ⟨?_, ?_⟩
  · cases b with
    | true =>
      refine .continued rfl rfl rfl hsome ?_
      refine .modify (f := fun n => { n with state := .ready }) (fun n hn => ?_) s.slots
        (fun _ _ _ => id) fun w hw => ?_
      · rw [node, hn] at hst
        exact ⟨hst, rfl⟩
      · have hlive := (hset.hooked w a hw).2
        rw [hst] at hlive
        exact absurd rfl hlive
    | false => exact .kept rfl (.setState (by simp [hst, Lasts]) (.inl rfl))
  show ¬ Lasts b ((s.setState a .ready).node s.current).state
  by_cases hcur : s.current = a
  · rw [hcur, setState, node_modify_self hsome]
    simp [Lasts]
  · rw [setState, node_modify_of_ne hcur]
    exact hset.current

/-- **`process_signal`**, on a node it has found. -/
theorem Ringed.effect_signalNode (h : Ringed s l) (hset : Settled b s) (hsome : (s.nodes a).isSome)
    {sig : Nat} (sp : Spawn)
    (hkill : ¬ (a = s.idle ∨ Caught (s.node a) sig ∨ ¬ Fatal sig ∨ (s.node a).state = .terminated) →
      ¬ (s.releaseIrqs a).Recorded a)
    (hstop : b = true → sig = sigstop → a ≠ s.idle → (s.node a).state ≠ .terminated →
      ¬ s.Recorded a) :
    Effect b (if a = s.idle ∨ Caught (s.node a) sig ∨ ¬ Fatal sig ∨ (s.node a).state = .terminated
          then none else some (a, 128 + sig))
        (if sig = sigcont ∧ (s.node a).state = .stopped then some a else none) s
        (s.signalNode a sig sp) ∧ Awake b (s.signalNode a sig sp) := by
  obtain ⟨n, hn⟩ := isSome_iff_exists.1 hsome
  unfold signalNode
  by_cases hidle : a = s.idle
  · rw [if_pos hidle, if_pos (.inl hidle)]
    exact ⟨.kept rfl (.refl s), hset.current⟩
  rw [if_neg hidle]
  by_cases hcaught : Caught (s.node a) sig
  · rw [if_pos hcaught, if_pos (.inr (.inl hcaught))]
    have hkept : Kept b s s (s.modify a fun n => record n sig) := .modify fun n _ => .record n sig
    exact ⟨.kept rfl hkept, hkept.live h.current_isSome hset.current⟩
  rw [if_neg hcaught]
  by_cases hfatal : Fatal sig
  · rw [if_pos hfatal]
    by_cases hterm : (s.node a).state = .terminated
    · rw [if_pos (.inr (.inr (.inr hterm))), terminateBySignal, if_pos hterm]
      exact ⟨.kept rfl (.refl s), hset.current⟩
    have hall : ¬ (a = s.idle ∨ Caught (s.node a) sig ∨ ¬ Fatal sig ∨
        (s.node a).state = .terminated) := by tauto
    rw [if_neg hall]
    obtain ⟨hchange, hlive⟩ := h.change_terminateBySignal hset hsome hidle hterm (hkill hall) sig sp
    exact ⟨.ended rfl hsome hidle hchange, hlive⟩
  rw [if_neg hfatal, if_pos (.inr (.inr (.inl hfatal)))]
  by_cases hsig : sig = sigstop
  · rw [if_pos hsig]
    by_cases hterm : (s.node a).state = .terminated
    · rw [if_pos hterm]
      exact ⟨.kept rfl (.refl s), hset.current⟩
    · rw [if_neg hterm]
      exact h.effect_stop hset hsome hidle hterm (fun hb => hstop hb hsig hidle hterm) rfl
  rw [if_neg hsig]
  by_cases hcont : sig = sigcont
  · rw [if_pos hcont]
    by_cases hst : (s.node a).state = .stopped
    · rw [if_pos hst, if_pos ⟨hcont, hst⟩]
      exact hset.effect_continue hsome hst
    · rw [if_neg hst]
      exact ⟨.kept rfl (.refl s), hset.current⟩
  · rw [if_neg hcont]
    exact ⟨.kept rfl (.refl s), hset.current⟩

/-- **`process_signal`.** -/
theorem Ringed.effect_processSignal (h : Ringed s l) (hset : Settled b s) (pid sig : Nat)
    (sp : Spawn) (hkill : ∀ r ∈ s.killed pid sig, ¬ (s.releaseIrqs r.1).Recorded r.1)
    (hstop : b = true → sig = sigstop → ∀ a, s.findByPid pid = some a → a ≠ s.idle →
      (s.node a).state ≠ .terminated → ¬ s.Recorded a) :
    Effect b (s.killed pid sig) (s.letGo pid sig) s (s.processSignal pid sig sp) ∧
      Awake b (s.processSignal pid sig sp) := by
  unfold processSignal
  cases hfind : s.findByPid pid with
  | none =>
    have hnone : s.killed pid sig = none := by rw [killed, hfind]
    rw [hnone]
    exact ⟨.kept rfl (.refl s), hset.current⟩
  | some a =>
    have hk : s.killed pid sig = if a = s.idle ∨ Caught (s.node a) sig ∨ ¬ Fatal sig ∨
        (s.node a).state = .terminated then none else some (a, 128 + (sig : Int)) := by
      rw [killed, hfind]
    have hgo : s.letGo pid sig =
        if sig = sigcont ∧ (s.node a).state = .stopped then some a else none := by
      rw [letGo, hfind]
      by_cases hsig : sig = sigcont
      · by_cases hst : (s.node a).state = .stopped <;> simp [hsig, hst, Option.filter]
      · simp [hsig]
    rw [hk, hgo]
    refine h.effect_signalNode hset (h.findByPid_isSome hfind) sp (fun hall => ?_) fun hb hsig =>
      hstop hb hsig a hfind
    exact hkill (a, 128 + sig) (by rw [hk, if_neg hall]; rfl)

/-! ## The timer -/

theorem ring_modify (hnext : ∀ n, (f n).next = n.next) (x : Nat) :
    (s.modify x f).ring = s.ring := by
  have hfun : (s.modify x f).next = s.next := funext fun y => field_modify hnext s x y
  rw [ring, hfun]
  rfl

theorem findByPid_modify (hnext : ∀ n, (f n).next = n.next) (hpid : ∀ n, (f n).pid = n.pid)
    (x pid : Nat) : (s.modify x f).findByPid pid = s.findByPid pid := by
  unfold findByPid
  rw [ring_modify hnext]
  congr 1
  funext y
  rw [field_modify hpid s x y]

/-- Whom a signal terminates does not depend on who sleeps. -/
theorem killed_modify (hnext : ∀ n, (f n).next = n.next) (hpid : ∀ n, (f n).pid = n.pid)
    (hsignals : ∀ n sig, Caught (f n) sig ↔ Caught n sig) (x pid sig : Nat)
    (hstate : ∀ a, ((s.modify x f).node a).state = .terminated ↔ (s.node a).state = .terminated) :
    (s.modify x f).killed pid sig = s.killed pid sig := by
  unfold killed
  rw [findByPid_modify hnext hpid]
  cases s.findByPid pid with
  | none => rfl
  | some a =>
    have hc : Caught ((s.modify x f).node a) sig ↔ Caught (s.node a) sig := by
      have := field_modify (g := fun n => Caught n sig) (fun n => propext (hsignals n sig)) s x a
      exact iff_of_eq this
    have hidle : (s.modify x f).idle = s.idle := rfl
    simp only [hc, hstate, hidle]

theorem recorded_modify (hcont : ∀ n, (f n).cont = n.cont) (x a : Nat) :
    ((s.modify x f).releaseIrqs a).Recorded a ↔ (s.releaseIrqs a).Recorded a := by
  have hsame : (((s.modify x f).releaseIrqs a).node a).cont = ((s.releaseIrqs a).node a).cont :=
    field_modify (g := Node.cont) hcont s x a
  unfold Recorded
  rw [hsame]
  rfl

/-- Nothing goes on. -/
theorem Effect.of_none {o : Option (Nat × Int)} (h : Effect b o none s s') (c : Option Nat) :
    Effect b o c s s' := by
  cases h with
  | kept ho h => exact .kept ho h
  | ended ho hsome hidle h => exact .ended ho hsome hidle h
  | stopped hb ho hsome hidle h => exact .stopped hb ho hsome hidle h
  | continued hb ho hc hsome h => cases hc

section

variable (h : Ringed s l) (hset : Settled b s) (x : Nat) (sp : Spawn)

include h hset x sp

/-- The alarm of a process goes off. -/
theorem Ringed.effect_alarm
    (hkill : ∀ r ∈ s.killed (s.node x).pid sigalrm, ¬ (s.releaseIrqs r.1).Recorded r.1)
    (hs' : s' = (s.modify x fun n => { n with alarmTick := 0 }).processSignal
      (s.node x).pid sigalrm sp) :
    Effect b (s.killed (s.node x).pid sigalrm) none s s' ∧ Awake b s' := by
  have hkept : Kept b s s (s.modify x fun n => { n with alarmTick := 0 }) :=
    .modify fun _ _ => .of_state rfl rfl rfl rfl rfl
  have hkilled : (s.modify x fun n => { n with alarmTick := 0 }).killed (s.node x).pid sigalrm =
      s.killed (s.node x).pid sigalrm :=
    killed_modify (f := fun n => { n with alarmTick := 0 }) (fun _ => rfl) (fun _ => rfl)
      (fun _ _ => Iff.rfl) x _ _ fun a => by
        rw [field_modify (f := fun n => { n with alarmTick := 0 }) (g := Node.state) fun _ => rfl]
  have hquiet : Quiet s (s.modify x fun n => { n with alarmTick := 0 }) :=
    .modify fun _ => ⟨rfl, rfl, fun _ => id⟩
  obtain ⟨heffect, hlive⟩ := (h.quiet hquiet).effect_processSignal (hset.kept h hkept rfl) _ _ sp
    (fun r hr hrec => hkill r (hkilled ▸ hr)
      ((recorded_modify (f := fun n => { n with alarmTick := 0 }) (fun _ => rfl) x r.1).1 hrec))
    fun _ hsig => nomatch hsig
  rw [hkilled] at heffect
  rw [hs']
  exact ⟨.kept_left hkept rfl (hquiet.pid _) hquiet.isSome heffect, hlive⟩

section

variable (hkill : ∀ r ∈ (if s.Due x then s.killed (s.node x).pid sigalrm else none),
  ¬ (s.releaseIrqs r.1).Recorded r.1)

include hkill

/-- The alarm of a process is looked at. -/
theorem Ringed.effect_due
    (hs' : s' = if s.Due x then (s.modify x fun n => { n with alarmTick := 0 }).processSignal
      (s.node x).pid sigalrm sp else s) :
    Effect b (if s.Due x then s.killed (s.node x).pid sigalrm else none) none s s' ∧
      Awake b s' := by
  by_cases hdue : s.Due x
  · rw [if_pos hdue] at hkill hs' ⊢
    exact h.effect_alarm hset x sp hkill hs'
  rw [if_neg hdue] at hs' ⊢
  rw [hs']
  exact ⟨.kept rfl (.refl s), hset.current⟩

/-- **One turn of the timer loop.**  A sleeper is woken before its alarm is looked at,
which changes nothing for the alarm. -/
theorem Ringed.effect_timerVisit :
    Effect b (if s.Due x then s.killed (s.node x).pid sigalrm else none) none s
        (s.timerVisit x sp) ∧ Awake b (s.timerVisit x sp) := by
  unfold timerVisit
  by_cases hsleep : (s.node x).state = .sleeping ∧ (s.node x).wakeupTick ≤ s.ticks
  · set t := s.setState x .ready with ht
    have hkept : Kept b s s t := .setState (by simp [hsleep.1, Lasts]) (.inl rfl)
    have hquiet : Quiet s t := .setState s x _ fun _ => by simp
    have halarm : (t.node x).alarmTick = (s.node x).alarmTick :=
      field_modify (f := fun n => { n with state := .ready }) (g := Node.alarmTick)
        (fun _ => rfl) s x x
    have hstate : ∀ y, (t.node y).state = .terminated ↔ (s.node y).state = .terminated := by
      intro y
      rw [ht, setState]
      rcases node_modify_cases s x (fun n => { n with state := .ready }) y with h | ⟨rfl, h⟩
      · rw [h]
      · simp [h, hsleep.1]
    have hkilled : t.killed (s.node x).pid sigalrm =
        s.killed (s.node x).pid sigalrm :=
      killed_modify (f := fun n => { n with state := .ready }) (fun _ => rfl) (fun _ => rfl)
        (fun _ _ => Iff.rfl) x _ _ hstate
    have htarget : (if t.Due x then t.killed
          (t.node x).pid sigalrm else none) =
        if s.Due x then s.killed (s.node x).pid sigalrm else none := by
      have hdue : t.Due x ↔ s.Due x := by
        unfold Due
        rw [halarm]
        rfl
      simp only [hquiet.pid, hkilled, hdue]
    rw [if_pos hsleep]
    obtain ⟨heffect, hlive⟩ := (h.quiet hquiet).effect_due (hset.kept h hkept rfl) x sp
      (fun r hr hrec => hkill r (htarget ▸ hr)
        ((recorded_modify (f := fun n => { n with state := .ready }) (fun _ => rfl) x r.1).1 hrec))
      rfl
    rw [htarget] at heffect
    exact ⟨.kept_left hkept rfl (hquiet.pid _) hquiet.isSome heffect, hlive⟩
  · rw [if_neg hsleep]
    exact h.effect_due hset x sp hkill rfl

end

end

/-! ## Removing -/

/-- Terminated nodes in `drop` are removed, and the others are left alone. -/
structure Dropped (b : Bool) (drop : Nat → Prop) (s s' : State) : Prop where
  idle : s'.idle = s.idle
  current : s'.current = s.current
  taken : s.taken ≤ s'.taken
  slots : ∀ w x, s'.slots w = some x → s.slots w = some x
  node : ∀ x n, s.nodes x = some n →
    (n.state = .terminated ∧ drop x ∧ s'.nodes x = none) ∨
      ∃ n', s'.nodes x = some n' ∧ NodeKept b n n'
  none : ∀ x, s.nodes x = none → s'.nodes x = none

theorem Dropped.trans (h : Dropped b drop s s₁) (h' : Dropped b drop s₁ s₂) :
    Dropped b drop s s₂ where
  idle := h'.idle.trans h.idle
  current := h'.current.trans h.current
  taken := Nat.le_trans h.taken h'.taken
  slots w x hx := h.slots w x (h'.slots w x hx)
  node x n hn := by
    rcases h.node x n hn with ⟨hterm, hdrop, hnone⟩ | ⟨n₁, hn₁, hk⟩
    · exact .inl ⟨hterm, hdrop, h'.none x hnone⟩
    rcases h'.node x n₁ hn₁ with ⟨hterm, hdrop, hnone⟩ | ⟨n₂, hn₂, hk'⟩
    · exact .inl ⟨hk.terminated_iff.1 hterm, hdrop, hnone⟩
    · exact .inr ⟨n₂, hn₂, hk.trans hk'⟩
  none x hx := h'.none x (h.none x hx)

theorem Dropped.of_kept (hk : Kept b s₀ s s') (hcur : s'.current = s.current)
    (hsome : ∀ x, (s'.nodes x).isSome = (s.nodes x).isSome) : Dropped b drop s s' where
  idle := hk.idle
  current := hcur
  taken := hk.taken
  slots := hk.slots
  node x n hn := .inr (hk.node x n hn)
  none x hx := by
    have hx' := hsome x
    rw [hx] at hx'
    simpa using hx'

theorem Dropped.refl (s : State) : Dropped b drop s s :=
  .of_kept (show Kept b s s s from .refl s) rfl fun _ => rfl

/-- What is live is left alone, a free address too. -/
theorem Dropped.node_kept (h : Dropped b drop s s') {x : Nat}
    (hlive : ¬ Lasts b (s.node x).state) : NodeKept b (s.node x) (s'.node x) := by
  cases hn : s.nodes x with
  | none =>
    rw [State.node, State.node, hn, h.none x hn]
    exact .refl _
  | some n =>
    rw [State.node, hn] at hlive
    obtain ⟨n', hn', hk⟩ := of_live hlive (h.node x n hn)
    rw [State.node, State.node, hn, hn']
    exact hk

theorem Settled.dropped (h : Settled b s) (hd : Dropped b drop s s') : Settled b s' where
  hooked w x hx := by
    obtain ⟨hcont, hlive⟩ := h.hooked w x (hd.slots w x hx)
    exact ⟨(hd.node_kept hlive).cont.trans hcont, (hd.node_kept hlive).live hlive⟩
  idle := by
    rw [hd.idle]
    exact (hd.node_kept h.idle).live h.idle
  current := by
    rw [hd.current]
    exact (hd.node_kept h.current).live h.current

/-- A node is taken out of the list and freed. -/
theorem Dropped.release (h : Hooked b s) (ha : (s.node a).state = .terminated) (hdrop : drop a)
    (closes : List Slot) : Dropped b drop s (s.release a closes) := by
  have hk : Kept b s s (s.wakeAll closes) := .wakeAll h closes
  have hnodes : ∀ x, (s.release a closes).nodes x =
      if x = a then Option.none else (s.wakeAll closes).nodes x := fun x => nodes_kfree _ a x
  refine ⟨hk.idle, current_wakeAll s closes, hk.taken, hk.slots, fun x n hn => ?_, fun x hx => ?_⟩
  · rw [hnodes]
    by_cases hxa : x = a
    · subst hxa
      rw [State.node, hn] at ha
      exact .inl ⟨ha, hdrop, if_pos rfl⟩
    · rw [if_neg hxa]
      exact .inr (hk.node x n hn)
  rw [hnodes]
  split
  · rfl
  have hsome := (Quiet.wakeAll s closes).isSome x
  rw [hx] at hsome
  simpa using hsome

/-- Pointers of the list are written. -/
theorem Dropped.setNext (s : State) (q x list : Nat) :
    Dropped b drop s { s.setNext q x with processList := list } := by
  have hrelinked : Relinked s { s.setNext q x with processList := list } := relinked_setNext s q x
  have hkept : Kept b s s { s.setNext q x with processList := list } := hrelinked.kept rfl rfl rfl
  exact .of_kept hkept rfl hrelinked.isSome

/-- **`process_remove_from_list`** removes one. -/
theorem Ringed.dropped_remove (h : Ringed s l) (ha : a ∈ l) (hhooked : Hooked b s)
    (hterm : (s.node a).state = .terminated) (hdrop : drop a) (closes : List Slot) :
    Dropped b drop s (s.processRemoveFromList a closes) := by
  obtain ⟨l₁, l₂, rfl⟩ := List.append_of_mem ha
  obtain ⟨m, q, -, hunlink⟩ := h.unlink_eq
  have hrelinked := relinked_setNext s q (s.next a)
  have hlink : Dropped b drop s (s.setNext q (s.next a)) := .setNext s q _ s.processList
  rw [State.processRemoveFromList, hunlink]
  refine hlink.trans (.release (hhooked.kept (show Kept b s _ _ from hrelinked.kept rfl rfl rfl))
    ?_ hdrop closes)
  exact (hrelinked.field (g := Node.state) (fun _ _ => rfl) a).trans hterm

/-- **`process_reap`** removes terminated nodes only. -/
theorem Settled.dropped_reapLoop (h : Settled b s) (closes : Nat → List Slot) (start n p : Nat)
    (prev : Option Nat) :
    Dropped b (fun _ => True) s (reapLoop closes start n s p prev).1 := by
  induction n generalizing s p prev with
  | zero => exact .refl s
  | succ n ih =>
    unfold reapLoop
    dsimp only
    split
    · exact .refl s
    split
    · next hterm =>
      have hstep : ∀ q list, Dropped b (fun _ => True) s
          (({ s.setNext q (s.next p) with processList := list } : State).release p (closes p)) := by
        intro q list
        have hlink : Dropped b (fun _ => True) s
            { s.setNext q (s.next p) with processList := list } := .setNext s q _ list
        refine hlink.trans (.release (h.dropped hlink).hooked ?_ trivial _)
        exact ((relinked_setNext s q (s.next p)).field (g := Node.state) (fun _ _ => rfl) p).trans
          hterm.1
      cases prev with
      | none =>
        dsimp only
        split
        · exact (hstep _ _).trans (ih (h.dropped (hstep _ _)) _ _)
        · exact .refl s
      | some q => exact (hstep q s.processList).trans (ih (h.dropped (hstep q _)) _ _)
    · split
      · exact .refl s
      · exact ih h _ _

/-! ## The current process comes to another place -/

/-- The process is the same, and neither terminated nor stopped. -/
def Placed (b : Bool) (n n' : Node) : Prop :=
  n'.pid = n.pid ∧ n'.ppid = n.ppid ∧ ¬ Lasts b n'.state

theorem Placed.kept_right (n n₁ n₂ : Node) (h : Placed b n n₁) (hk : NodeKept b n₁ n₂) :
    Placed b n n₂ :=
  ⟨hk.pid.trans h.1, hk.ppid.trans h.2.1, hk.live h.2.2⟩

section

variable (h : Ringed s l) (hset : Settled b s)

include h hset

/-- Fields of the current process are written before it gives up the processor. -/
theorem Ringed.change_schedule (slots : Slot → Option Nat)
    (hf : ∀ n, (f n).pid = n.pid ∧ (f n).ppid = n.ppid ∧ (f n).next = n.next)
    (hstate : ∀ n, (f n).state = .blocked ∨ (f n).state = .sleeping)
    (hslots : ∀ w x, x ≠ s.current → slots w = some x → s.slots w = some x)
    (hhooked : ∀ w, slots w = some s.current →
      ((s.modify s.current f).node s.current).cont = .slot w)
    (hs' : s' = ({ s.modify s.current f with slots := slots } : State).schedule) :
    Change b s.current (fun _ => False) (Placed b) s s s' ∧ Awake b s' := by
  have hlive : ∀ n, ¬ Lasts b (f n).state := by
    intro n
    rcases hstate n with hst | hst <;> simp [hst, Lasts]
  have hself : (s.modify s.current f).node s.current = f (s.node s.current) :=
    node_modify_self h.current_isSome
  have hring : Ringed { s.modify s.current f with slots := slots } l := by
    refine h.quiet ((Quiet.modify (a := s.current) fun n => ⟨(hf n).2.2, (hf n).1,
      fun _ _ heq => ?_⟩).trans (.setSlots _ _))
    refine hlive n ?_
    rw [heq]
    trivial
  have hchange : Change b s.current (fun _ => False) (Placed b) s s
      { s.modify s.current f with slots := slots } := by
    refine Change.modify (fun n _ => ⟨(hf n).1, (hf n).2.1, hlive n⟩) _ hslots fun w hw => ?_
    refine ⟨hhooked w hw, ?_⟩
    rw [hself]
    exact hlive _
  have hidle : ¬ Lasts b
      (({ s.modify s.current f with slots := slots } : State).node s.idle).state := by
    show ¬ Lasts b ((s.modify s.current f).node s.idle).state
    by_cases hcur : s.idle = s.current
    · rw [hcur, hself]
      exact hlive _
    · rw [node_modify_of_ne hcur]
      exact hset.idle
  rw [hs']
  exact ⟨hchange.kept_right (.schedule hring hidle) Placed.kept_right h.current_isSome,
    hring.live_schedule hidle⟩

/-- The current process goes on in user mode, after others were removed. -/
theorem Ringed.change_user (hd : Dropped b drop s s₁) (hnot : ∀ w, s.slots w ≠ some s.current) :
    Change b s.current drop (Placed b) s s (s₁.modify s.current fun n => { n with cont := .user }) ∧
      ¬ Lasts b ((s₁.modify s.current fun n => { n with cont := .user }).node s.current).state := by
  obtain ⟨n, hn⟩ := isSome_iff_exists.1 h.current_isSome
  have hcur := hset.current
  rw [node, hn] at hcur
  obtain ⟨n₁, hn₁, hk⟩ := of_live hcur (hd.node _ n hn)
  have hself : (s₁.modify s.current fun n => { n with cont := .user }).nodes s.current =
      some { n₁ with cont := .user } := by
    rw [nodes_modify, if_pos rfl, hn₁]
    rfl
  have hlive : ¬ Lasts b n₁.state := hk.live hcur
  refine ⟨⟨hd.idle, hd.taken, fun w x _ hx => hd.slots w x hx, fun w hw => ?_, fun m hm => ?_,
    fun x m hx hm => ?_, fun x m hnone hsome => ?_⟩, ?_⟩
  · exact absurd (hd.slots w _ hw) (hnot w)
  · obtain rfl := some.inj (hn.symm.trans hm)
    exact ⟨_, hself, hk.pid, hk.ppid, hlive⟩
  · rw [nodes_modify, if_neg hx]
    exact hd.node x m hm
  · have hsome' : (s₁.modify s.current fun n => { n with cont := .user }).nodes x ≠ none := by
      rw [hsome]
      intro heq
      cases heq
    refine absurd ?_ hsome'
    rw [nodes_modify]
    split
    · next hx =>
      rw [hx, hn] at hnone
      cases hnone
    · exact hd.none x hnone
  · rw [node, hself]
    exact hlive

/-- **One turn of `process_wait`.** -/
theorem Ringed.change_waitTurn
    (hnot : ∀ w, s.slots w ≠ some s.current) (target : Nat) (closes : List Slot) :
    Change b s.current (fun x => (s.node x).ppid = (s.node s.current).pid) (Placed b) s s
        (s.waitTurn target closes).2 ∧ Awake b (s.waitTurn target closes).2 := by
  unfold waitTurn
  dsimp only
  split
  · next z hz =>
    obtain ⟨hmem, hawait, hterm⟩ := h.zombie_spec hz
    have hidle : z ≠ s.idle := fun heq => h.idleLive (heq ▸ hterm)
    have hdropped : Dropped b (fun x => (s.node x).ppid = (s.node s.current).pid) s
        (s.processRemoveFromList z closes) :=
      h.dropped_remove ((List.mem_cons.1 hmem).resolve_left hidle) hset.hooked hterm hawait.1 closes
    obtain ⟨hchange, hcur⟩ := h.change_user hset hdropped hnot
    refine ⟨hchange, ?_⟩
    show ¬ Lasts b (((s.processRemoveFromList z closes).modify s.current
      fun n => { n with cont := .user }).node (s.processRemoveFromList z closes).current).state
    rw [hdropped.current]
    exact hcur
  split
  · obtain ⟨hchange, hcur⟩ := h.change_schedule hset s.slots
      (f := fun n => { n with waitTargetPid := target, state := .blocked, cont := .wait target })
      (fun _ => ⟨rfl, rfl, rfl⟩) (fun _ => .inl rfl) (fun _ _ _ => id)
      (fun w hw => absurd hw (hnot w)) rfl
    exact ⟨hchange.drop_mono fun _ => False.elim, hcur⟩
  · exact h.change_user hset (.refl s) hnot

/-- **Waiting for a slot.** -/
theorem Ringed.change_block {w : Slot} (hnot : ∀ v, v ≠ w → s.slots v ≠ some s.current) :
    Change b s.current (fun _ => False) (Placed b) s s (s.block w) ∧ Awake b (s.block w) := by
  refine h.change_schedule hset (Function.update s.slots w (some s.current))
    (f := fun n => { n with state := .blocked, cont := .slot w }) (fun _ => ⟨rfl, rfl, rfl⟩)
    (fun _ => .inl rfl) (fun v x hx hv => ?_) (fun v hv => ?_) rfl
  · rw [Function.update_apply] at hv
    split at hv
    · exact absurd (some.inj hv).symm hx
    · exact hv
  · rw [Function.update_apply] at hv
    split at hv
    · next heq =>
      rw [node_modify_self h.current_isSome, heq]
    · next hne => exact absurd hv (hnot v hne)

/-- `process_wait` goes on behind its `schedule`. -/
theorem Ringed.change_rescan
    (hnot : ∀ w, s.slots w ≠ some s.current) (target : Nat) (closes : List Slot) :
    Change b s.current (fun x => (s.node x).ppid = (s.node s.current).pid) (Placed b) s s
        (s.rescan target closes).2 ∧ Awake b (s.rescan target closes).2 := by
  have hkept : Kept b s s (s.modify s.current fun n => { n with waitTargetPid := 0 }) :=
    .modify fun _ _ => .of_state rfl rfl rfl rfl rfl
  have hquiet : Quiet s (s.modify s.current fun n => { n with waitTargetPid := 0 }) :=
    .modify fun _ => ⟨rfl, rfl, fun _ => id⟩
  obtain ⟨hchange, hlive⟩ := (h.quiet hquiet).change_waitTurn
    (hset.kept h hkept rfl) hnot target closes
  refine ⟨.kept_left hkept ?_ (fun n n₁ n₂ hk hp => ?_) h.current_isSome, hlive⟩
  · refine .drop_mono (hchange.base ?_ ?_) fun x hx => ?_
    · rfl
    · exact (hquiet.pid _).symm
    rw [field_modify (f := fun n => { n with waitTargetPid := 0 })
      (g := Node.ppid) fun _ => rfl] at hx
    exact hx.trans (hquiet.pid _)
  · exact ⟨hp.1.trans hk.pid, hp.2.1.trans hk.ppid, hp.2.2⟩

end

/-! ## Steps -/

/-- **What a step does** to the processes. -/
inductive StepEffect (b : Bool) (s : State) (e : Step) (s' : State) : Prop
  | effect (h : Effect b (s.ended e) (s.continued e) s s')
  | reaped (hreap : ∃ closes, e = .reap closes) (ho : s.ended e = none)
      (h : Dropped b (fun _ => True) s s')
  | moved (ho : s.ended e = none)
      (h : Change b s.current (fun x => (s.node x).ppid = (s.node s.current).pid) (Placed b) s s s')

theorem StepEffect.of_kept {e : Step} (ho : s.ended e = none) (h : Kept b s s s') :
    StepEffect b s e s' := .effect (.kept ho h)

section

variable (h : Ringed s l) (hset : Settled b s)

include h hset

/-- A process is created. -/
theorem Ringed.kept_elfExec (sp : Spawn) (foreground : Bool) :
    Kept b s s (s.elfExec sp foreground) ∧ Awake b (s.elfExec sp foreground) := by
  obtain ⟨l', hring', hgrown, hnew⟩ := h.spawn sp
  have hkept : Kept b s s (s.spawn sp).2 := hgrown.kept
  have hcur : Awake b (s.spawn sp).2 := by
    rw [Awake, hgrown.current]
    exact hkept.live h.current_isSome hset.current
  unfold elfExec
  generalize s.spawn sp = made at hring' hnew hkept hcur ⊢
  obtain ⟨r, s'⟩ := made
  cases r with
  | none => exact ⟨hkept, hcur⟩
  | some a =>
    obtain ⟨-, hmem, hready⟩ := hnew a rfl
    have hsome : (s'.nodes a).isSome := (hring'.isSome a).2 (List.mem_cons_of_mem _ hmem)
    dsimp only
    split
    · refine ⟨hkept.trans (.switchToProcess hsome ?_), live_switchToProcess hsome⟩
      have hready' : (s'.node a).state = .ready := hready
      simp [hready', Lasts]
    · exact ⟨hkept, hcur⟩

theorem Ringed.kept_processFork (alloc : Option Nat) (resources cloned : Bool) :
    Kept b s s (s.processFork alloc resources cloned) ∧
      (s.processFork alloc resources cloned).current = s.current := by
  unfold processFork
  rcases h.processCreate alloc resources with
    ⟨s', heq, -, hgrown⟩ | ⟨a, s', heq, hring', hgrown, hfree, -⟩
  · rw [heq]
    exact ⟨hgrown.kept, hgrown.current⟩
  · rw [heq]
    dsimp only
    split
    · refine ⟨Grown.kept ?_, hgrown.current⟩
      exact hgrown.modify_fresh hfree (fun _ => rfl) fun _ => rfl
    -- the new node is removed again, and the others are as they were
    set t := s'.setState a .terminated with ht
    have hmarked : Kept b s s t :=
      (hgrown.modify_fresh (f := fun n => { n with state := .terminated }) hfree (fun _ => rfl)
        fun _ => rfl).kept
    have hmem : a ∈ l ++ [a] := List.mem_append_right _ List.mem_cons_self
    have hidle : a ≠ s'.idle := fun heq' => (List.nodup_cons.1 hring'.nodup).1 (heq' ▸ hmem)
    have hring : Ringed t (l ++ [a]) :=
      hring'.quiet (.setState s' a _ fun heq' => absurd heq' hidle)
    have hsome : (s'.nodes a).isSome := (hring'.isSome a).2 (List.mem_cons_of_mem _ hmem)
    have hdropped : Dropped b (Eq a) t (s'.processDiscard a []) := by
      refine hring.dropped_remove hmem (hset.hooked.kept hmarked) ?_ rfl []
      rw [ht, setState, node_modify_self hsome]
    refine ⟨⟨hdropped.idle.trans hmarked.idle, Nat.le_trans hmarked.taken hdropped.taken,
      fun w x hx => hmarked.slots w x (hdropped.slots w x hx), fun x n hn => ?_,
      fun x n' hnone hx => ?_⟩, hdropped.current.trans hgrown.current⟩
    · obtain ⟨n₁, hn₁, hk⟩ := hmarked.node x n hn
      rcases hdropped.node x n₁ hn₁ with ⟨-, rfl, -⟩ | ⟨n₂, hn₂, hk'⟩
      · rw [hfree] at hn
        cases hn
      · exact ⟨n₂, hn₂, hk.trans hk'⟩
    · cases hx₁ : t.nodes x with
      | none =>
        rw [hdropped.none x hx₁] at hx
        cases hx
      | some n₁ =>
        rcases hdropped.node x n₁ hx₁ with ⟨-, -, hgone⟩ | ⟨n₂, hn₂, hk⟩
        · rw [hgone] at hx
          cases hx
        obtain rfl := some.inj (hn₂.symm.trans hx)
        rw [hk.pid, hk.ppid]
        exact hmarked.fresh x n₁ hnone hx₁

/-- What the current process, or an interrupt, does in user mode. -/
theorem Ringed.userStepEffect
    (hcont : (s.node s.current).cont = .user) (e : Step) (hclear : Clear b s e) :
    StepEffect b s e (s.userStep e) ∧ Awake b (s.userStep e) := by
  have hnot : ∀ w, s.slots w ≠ some s.current := hset.hooked.ne_of_user hcont
  have hkeep : ∀ {s'}, s.ended e = none → s'.current = s.current → Kept b s s s' →
      StepEffect b s e s' ∧ Awake b s' := fun ho hcur hk =>
    ⟨.of_kept ho hk, (hset.kept h hk hcur).current⟩
  have hidle : s.ended e = none → StepEffect b s e s ∧ Awake b s := fun ho => hkeep ho rfl (.refl s)
  have hended : ∀ {e : Step}, s.ended e = (match e with
      | .exit code _ => if s.current = s.idle then none else some (s.current, code)
      | .signal pid sig _ => s.killed pid sig
      | .timerVisit a _ =>
        if a ∈ s.ring ∧ s.Due a then s.killed (s.node a).pid sigalrm else none
      | _ => none) := by
    intro e
    unfold ended
    rw [hcont]
    cases e <;> rfl
  cases e with
  | spawn sp foreground =>
    obtain ⟨hkept, hcur⟩ := h.kept_elfExec hset sp foreground
    exact ⟨.of_kept hended hkept, hcur⟩
  | fork alloc resources cloned =>
    obtain ⟨hkept, hcur⟩ := h.kept_processFork hset alloc resources cloned
    exact hkeep hended hcur hkept
  | exit code sp =>
    unfold userStep
    dsimp only
    split
    · next hcur => exact hidle (hended.trans (if_pos hcur))
    · next hcur =>
      obtain ⟨hchange, hlive⟩ := h.change_processExit hset hcont hcur code sp
      exact ⟨.effect (.ended (hended.trans (if_neg hcur)) h.current_isSome hcur hchange), hlive⟩
  | signal pid sig sp =>
    have hkilled : s.ended (.signal pid sig sp) = s.killed pid sig := hended
    have hgo : s.continued (.signal pid sig sp) = s.letGo pid sig := by
      unfold continued
      rw [hcont]
    have hhalted : s.halted (.signal pid sig sp) = if sig = sigstop then
        (s.findByPid pid).filter fun a => a ≠ s.idle ∧ (s.node a).state ≠ .terminated
        else none := by
      unfold halted
      rw [hcont]
    obtain ⟨heffect, hlive⟩ := h.effect_processSignal hset pid sig sp
      (hkilled ▸ hclear.1) fun hb hsig a ha hne hterm => by
        refine hclear.2 hb a ?_
        rw [hhalted, if_pos hsig, ha]
        simp [Option.filter, hne, hterm]
    exact ⟨.effect (by rw [hkilled, hgo]; exact heffect), hlive⟩
  | setSignals handlers pending inHandler alarmTick =>
    exact hkeep hended rfl (.modify fun _ _ => .of_state rfl rfl rfl rfl rfl)
  | wait pid closes =>
    obtain ⟨hchange, hlive⟩ := h.change_waitTurn hset hnot
      (if pid = 0 then waitAnyPid else pid) closes
    exact ⟨.moved hended hchange, hlive⟩
  | block w =>
    unfold userStep
    dsimp only
    split
    · obtain ⟨hchange, hlive⟩ := h.change_block hset (w := w) fun v _ => hnot v
      exact ⟨.moved hended (hchange.drop_mono fun _ => False.elim), hlive⟩
    · exact hidle hended
  | sleep milliseconds =>
    unfold userStep processSleep
    dsimp only
    split
    · exact hidle hended
    split
    · exact hidle hended
    obtain ⟨hchange, hlive⟩ := h.change_schedule hset s.slots
      (f := fun n => { n with
        wakeupTick := s.ticks + (milliseconds + 9) / 10, state := .sleeping })
      (fun _ => ⟨rfl, rfl, rfl⟩) (fun _ => .inr rfl) (fun _ _ _ => id)
      (fun w hw => absurd hw (hnot w)) rfl
    exact ⟨.moved hended (hchange.drop_mono fun _ => False.elim), hlive⟩
  | schedule => exact ⟨.of_kept hended (.schedule h hset.idle), h.live_schedule hset.idle⟩
  | wake w =>
    exact hkeep hended (current_wake ..) (.wake hset.hooked w)
  | tick => exact hkeep hended rfl (.of_eq rfl rfl rfl rfl)
  | timerVisit a sp =>
    unfold userStep
    dsimp only
    split
    · next hmem =>
      have ho : s.ended (.timerVisit a sp) =
          if s.Due a then s.killed (s.node a).pid sigalrm else none := by
        refine hended.trans ?_
        simp only [hmem, true_and]
      obtain ⟨heffect, hlive⟩ := h.effect_timerVisit hset a sp (ho ▸ hclear.1)
      exact ⟨.effect (by rw [ho]; exact heffect.of_none _), hlive⟩
    · next hmem => exact hidle (hended.trans (if_neg fun hh => hmem hh.1))
  | reap closes =>
    have hdropped := hset.dropped_reapLoop closes s.processList maxIterations s.processList none
    refine ⟨.reaped ⟨closes, rfl⟩ hended hdropped, ?_⟩
    exact (hset.dropped hdropped).current
  | rescan closes => exact hidle hended
  | resume available => exact hidle hended

/-- **What a step does.** -/
theorem Ringed.stepEffect (e : Step) (hclear : Clear b s e) :
    StepEffect b s e (s.step e) ∧ Awake b (s.step e) := by
  cases hcont : (s.node s.current).cont with
  | user =>
    rw [step_of_user hcont]
    exact h.userStepEffect hset hcont e hclear
  | wait target =>
    have ho : s.ended e = none := by
      unfold ended
      rw [hcont]
    have hnot : ∀ w, s.slots w ≠ some s.current := fun w hw => by
      rw [(hset.hooked w _ hw).1] at hcont
      cases hcont
    unfold step
    rw [hcont]
    cases e with
    | rescan closes =>
      obtain ⟨hchange, hlive⟩ := h.change_rescan hset hnot target closes
      exact ⟨.moved ho hchange, hlive⟩
    | _ => exact ⟨.of_kept ho (.refl s), hset.current⟩
  | slot w =>
    have ho : s.ended e = none := by
      unfold ended
      rw [hcont]
    have hother : ∀ v, s.slots v = some s.current → v = w := fun v hv => by
      rw [(hset.hooked v _ hv).1] at hcont
      exact Cont.slot.inj hcont
    unfold step
    rw [hcont]
    cases e with
    | resume available =>
      dsimp only
      split
      · obtain ⟨hchange, hlive⟩ := h.change_block hset (w := w) fun v hne hv => hne (hother v hv)
        exact ⟨.moved ho (hchange.drop_mono fun _ => False.elim), hlive⟩
      · next hfree =>
        obtain ⟨hchange, hlive⟩ := h.change_user hset (.refl s) fun v hv =>
          hfree (.inl (hother v hv ▸ hv))
        exact ⟨.moved ho hchange, hlive⟩
    | _ => exact ⟨.of_kept ho (.refl s), hset.current⟩

end

theorem Change.settled (h : Change b a drop P s₀ s s') (hring : Ringed s l) (hset : Settled b s)
    (hidle : a = s.idle → ∀ n n', P n n' → ¬ Lasts b n'.state)
    (hcur : Awake b s') : Settled b s' where
  hooked := h.hooked_of hset.hooked
  idle := by
    by_cases ha : a = s.idle
    · obtain ⟨n, hn⟩ := isSome_iff_exists.1 hring.idle_isSome
      obtain ⟨n', hn', hp⟩ := h.self n (ha ▸ hn)
      rw [h.idle, ← ha, node, hn']
      exact hidle ha n n' hp
    · exact h.idle_live hring ha hset
  current := hcur

/-- **Every step keeps the pointers in order.** -/
theorem Settled.step (hset : Settled b s) (h : Ringed s l) (e : Step) (hclear : Clear b s e) :
    Settled b (s.step e) := by
  obtain ⟨heffect, hcur⟩ := h.stepEffect hset e hclear
  cases heffect with
  | effect heffect =>
    cases heffect with
    | kept ho hk =>
      refine ⟨hset.hooked.kept hk, ?_, hcur⟩
      rw [hk.idle]
      exact hk.live h.idle_isSome hset.idle
    | ended _ _ hidle hchange | stopped _ _ _ hidle hchange =>
      exact hchange.settled h hset (fun heq => absurd heq hidle) hcur
    | continued hb ho hc hsome hchange =>
      refine hchange.settled h hset (fun _ n n' hp => ?_) hcur
      simp [hp.2, Lasts]
  | reaped hreap ho hdropped => exact hset.dropped hdropped
  | moved ho hchange => exact hchange.settled h hset (fun _ _ _ hp => hp.2.2) hcur

theorem settled_processInit (a : Nat) : Settled b (processInit a) := by
  have hlive : ¬ Lasts b ((processInit a).node a).state := by
    rw [node, processInit]
    dsimp only
    rw [Function.update_self]
    exact id
  exact ⟨fun _ _ hx => absurd hx (by simp [processInit]), hlive, hlive⟩

/-- Along a run whose steps are clear. -/
theorem settled_of_run (ha : a ≠ 0) {steps : List Step}
    (hmeets : Run.Meets State.step (Clear b) (processInit a) steps) :
    (Run.run State.step (processInit a) steps).Intact ∧
      Settled b (Run.run State.step (processInit a) steps) := by
  refine hmeets.invariant (I := fun s => s.Intact ∧ Settled b s) (fun s e hs hok => ?_)
    ⟨intact_processInit ha, settled_processInit a⟩
  obtain ⟨hintact, hset⟩ := hs
  have hnext := hintact.step e
  obtain ⟨l, hring, -⟩ := hintact
  exact ⟨hnext, hset.step hring e hok⟩

end State

end Scheduler
