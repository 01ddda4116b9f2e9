import LufiraOS.Process.Reap

/-!
# The ring is intact in every run

Every step keeps the ring, and the process that runs is never a terminated one.
-/

namespace Scheduler

open Cycle List

namespace State

variable {s s' s₁ : State} {l : List Nat} {a b : Nat}

/-! ## New nodes -/

/-- The nodes of `s` are still there, with at most another pointer, and what is new
has just been created. -/
structure Grown (s s' : State) : Prop where
  current : s'.current = s.current
  idle : s'.idle = s.idle
  old : ∀ b, (s.nodes b).isSome → ∃ x, s'.nodes b = (s.nodes b).map fun n => { n with next := x }
  taken : s.taken ≤ s'.taken
  fresh : ∀ b n, s.nodes b = none → s'.nodes b = some n →
    n.pid = s.nextPid ∧ n.ppid = (s.node s.current).pid
  slots : ∀ w, s'.slots w = s.slots w ∨ ∃ a, w = .mailbox a ∧ s.nodes a = none ∧ s'.slots w = none

/-- Nothing of the nodes, slots and of who runs has changed. -/
theorem Grown.of_nodes_eq (hnodes : s'.nodes = s.nodes) (hslots : s'.slots = s.slots)
    (hcurrent : s'.current = s.current) (hidle : s'.idle = s.idle) (htaken : s.taken ≤ s'.taken) :
    Grown s s' where
  current := hcurrent
  idle := hidle
  taken := htaken
  old b _ := by
    refine ⟨(s.node b).next, ?_⟩
    rw [hnodes, node]
    cases s.nodes b <;> rfl
  fresh b n hnone hsome := by
    rw [hnodes, hnone] at hsome
    cases hsome
  slots w := .inl (by rw [hslots])

/-- A process that was there differs in its link at most. -/
theorem Grown.node (h : Grown s s') (hb : (s.nodes b).isSome) :
    ∃ x, s'.node b = { s.node b with next := x } := by
  obtain ⟨x, hx⟩ := h.old b hb
  obtain ⟨n, hn⟩ := Option.isSome_iff_exists.1 hb
  refine ⟨x, ?_⟩
  rw [State.node, State.node, hx, hn]
  rfl

/-- A node that has just been created is written. -/
theorem Grown.modify_fresh (h : Grown s s') (hfree : s.nodes a = none) {f : Node → Node}
    (hpid : ∀ n, (f n).pid = n.pid) (hppid : ∀ n, (f n).ppid = n.ppid) :
    Grown s (s'.modify a f) where
  current := h.current
  idle := h.idle
  taken := h.taken
  old b hb := by
    have hba : b ≠ a := by
      rintro rfl
      rw [hfree] at hb
      cases hb
    rw [nodes_modify, if_neg hba]
    exact h.old b hb
  fresh b n hnone hsome := by
    rw [nodes_modify] at hsome
    split at hsome
    · next hba =>
      obtain ⟨m, hm, rfl⟩ := Option.map_eq_some_iff.1 hsome
      rw [hpid, hppid]
      exact h.fresh a m hfree hm
    · exact h.fresh b n hnone hsome
  slots := h.slots

/-- `process_create` links a new process into the ring, or fails and changes nothing in it. -/
theorem Ringed.processCreate (h : Ringed s l) (alloc : Option Nat) (resources : Bool) :
    (∃ s', s.processCreate alloc resources = (none, s') ∧ Ringed s' l ∧ Grown s s') ∨
      ∃ a s', s.processCreate alloc resources = (some a, s') ∧ Ringed s' (l ++ [a]) ∧ Grown s s' ∧
        s.nodes a = none ∧ (s'.node a).state = .ready := by
  unfold State.processCreate
  split
  · exact .inl ⟨s, rfl, h, .of_nodes_eq rfl rfl rfl rfl (Nat.le_refl _)⟩
  · next hroom =>
    cases alloc with
    | none => exact .inl ⟨s, rfl, h, .of_nodes_eq rfl rfl rfl rfl (Nat.le_refl _)⟩
    | some a =>
      dsimp only
      split
      · exact .inl ⟨s, rfl, h, .of_nodes_eq rfl rfl rfl rfl (Nat.le_refl _)⟩
      · next hfree =>
        obtain ⟨ha, hnone⟩ := not_or.1 hfree
        have hnone' : s.nodes a = none := by simpa using hnone
        obtain ⟨htaken, hpid⟩ := h.take
        split
        · refine .inr ⟨a, _, rfl, ?_⟩
          obtain ⟨hring, hnode⟩ := htaken.link (n := newNode s.takePid s.nextPid) hnone' ha
            (Nat.lt_of_not_le hroom) rfl hpid
          refine ⟨hring, ⟨rfl, rfl, fun b hb => ?_, Nat.le_succ _, fun b n hb hn => ?_,
            fun w => ?_⟩, hnone', congrArg Node.state hnode⟩
          · refine nodes_link_of_ne _ ?_
            rintro rfl
            rw [hnone'] at hb
            cases hb
          · by_cases hba : b = a
            · subst hba
              have hn' : n = newNode s.takePid s.nextPid := by
                rw [← hnode, State.node, hn]
                rfl
              rw [hn']
              exact ⟨rfl, rfl⟩
            obtain ⟨x, hx⟩ := nodes_link_of_ne s.takePid (n := newNode s.takePid s.nextPid) hba
            have hb' : s.takePid.nodes b = none := hb
            rw [hx, hb'] at hn
            cases hn
          · by_cases hw : w = .mailbox a
            · subst hw
              exact .inr ⟨a, rfl, hnone', Function.update_self ..⟩
            · exact .inl (Function.update_of_ne hw ..)
        · exact .inl ⟨_, rfl, htaken, .of_nodes_eq rfl rfl rfl rfl (Nat.le_succ _)⟩

/-- A spawned process is ready and in the ring. -/
theorem Ringed.spawn (h : Ringed s l) (sp : Spawn) :
    ∃ l', Ringed (s.spawn sp).2 l' ∧ Grown s (s.spawn sp).2 ∧ ∀ a, (s.spawn sp).1 = some a →
        s.nodes a = none ∧ a ∈ l' ∧ ((s.spawn sp).2.node a).state = .ready := by
  unfold State.spawn
  rcases h.processCreate sp.alloc sp.resources with
    ⟨s', heq, hring, hgrown⟩ | ⟨a, s', heq, hring, hgrown, hfree, hready⟩
  · rw [heq]
    exact ⟨l, hring, hgrown, fun a ha => nomatch ha⟩
  · rw [heq]
    have ha : a ∈ l ++ [a] := mem_append_right _ mem_cons_self
    dsimp only
    split
    · refine ⟨_, hring, hgrown, fun b hb => ?_⟩
      cases hb
      exact ⟨hfree, ha, hready⟩
    have hidle : a ≠ s'.idle := fun heq' =>
      (nodup_cons.1 hring.nodup).1 (heq' ▸ ha)
    refine ⟨_, hring.quiet (.setState s' a _ fun heq' => absurd heq' hidle), ?_, fun b hb =>
      nomatch hb⟩
    exact hgrown.modify_fresh hfree (fun _ => rfl) fun _ => rfl

/-- The shell that is started anew is in the ring. -/
theorem Ringed.respawnShellIfNeeded (h : Ringed s l) (a : Nat) (sp : Spawn) :
    ∃ l', Ringed (s.respawnShellIfNeeded a sp) l' ∧ Grown s (s.respawnShellIfNeeded a sp) := by
  unfold State.respawnShellIfNeeded
  split
  · obtain ⟨l', hring, hgrown, hnew⟩ := h.spawn sp
    generalize hs' : s.spawn sp = made at hring hgrown hnew ⊢
    obtain ⟨r, s'⟩ := made
    cases r with
    | none => exact ⟨l', hring, hgrown⟩
    | some b =>
      refine ⟨l', hring.quiet (.modify fun _ => ⟨rfl, rfl, fun _ => id⟩), ?_⟩
      exact hgrown.modify_fresh (hnew b rfl).1 (fun _ => rfl) fun _ => rfl
  · exact ⟨l, h, .of_nodes_eq rfl rfl rfl rfl (Nat.le_refl _)⟩

/-! ## Alive -/

/-- No process has ended, and the same one runs. -/
theorem Alive.mono (h : s.Alive) (hcur : s'.current = s.current) (hidle : s'.idle = s.idle)
    (hnone : NoneTerminated s s') : s'.Alive := by
  rcases h with h | h
  · exact .inl (by rw [hcur, hidle, h])
  · exact .inr (hcur ▸ hnone _ h)

/-- A change of a node that ends no process. -/
theorem Alive.modify (h : s.Alive) (a : Nat) {f : Node → Node}
    (hf : ∀ n, n.state ≠ .terminated → (f n).state ≠ .terminated) : (s.modify a f).Alive :=
  h.mono rfl rfl (noneTerminated_modify s a hf)

/-- New processes leave the current one and the idle one alone. -/
theorem Alive.grown (h : s.Alive) (hring : Ringed s l) (hgrown : Grown s s') : s'.Alive := by
  rcases h with h | h
  · exact .inl (by rw [hgrown.current, hgrown.idle, h])
  refine .inr ?_
  obtain ⟨x, hx⟩ := hgrown.node hring.current_isSome
  rw [hgrown.current, hx]
  exact h

/-- The ring is intact, and a live process runs. -/
def Intact (s : State) : Prop := ∃ l, Ringed s l ∧ s.Alive

/-- What changes neither links nor who runs keeps the ring intact. -/
theorem Intact.quiet (h : s.Intact) (hq : Quiet s s') (hlive : s.Alive → s'.Alive) : s'.Intact := by
  obtain ⟨l, hring, halive⟩ := h
  exact ⟨l, hring.quiet hq, hlive halive⟩

/-- So does a change of a node that keeps its link and its number and ends no process. -/
theorem Intact.modify (h : s.Intact) {f : Node → Node} (hf : ∀ n, (f n).next = n.next ∧
    (f n).pid = n.pid ∧ (n.state ≠ .terminated → (f n).state ≠ .terminated)) :
    (s.modify a f).Intact :=
  h.quiet (.modify fun n => ⟨(hf n).1, (hf n).2.1, fun _ => (hf n).2.2⟩)
    fun hlive => hlive.modify a fun n => (hf n).2.2

/-- `schedule` leaves a process running that has not ended. -/
theorem Ringed.intact_schedule (h : Ringed s l) : s.schedule.Intact :=
  ⟨l, h.quiet h.schedule.1, h.schedule.2⟩

/-- `schedule` behind a step that keeps the links. -/
theorem Intact.schedule (h : s.Intact) (hq : Quiet s s') : s'.schedule.Intact := by
  obtain ⟨l, hring, -⟩ := h
  exact (hring.quiet hq).intact_schedule

/-- A switch to a process of the ring. -/
theorem Ringed.intact_switch (h : Ringed s l) (ha : (s.nodes a).isSome) :
    (s.switchToProcess a).Intact :=
  ⟨l, h.quiet (.switchToProcess s ha), alive_switchToProcess ha⟩

/-! ## Terminating -/

/-- Marking a process as ended keeps the links. -/
theorem Quiet.mark (s : State) (ha : a ≠ s.idle) (code : Int) : Quiet s (s.mark a code) := by
  have hmarked : Quiet s (s.modify a fun n => { n with exitCode := code, state := .terminated }) :=
    .modify fun _ => ⟨rfl, rfl, fun heq => absurd heq ha⟩
  exact hmarked.trans (.setSlots _ _)

/-- The end of a process keeps the ring; a shell may be added. -/
theorem Ringed.terminate (h : Ringed s l) (ha : a ≠ s.idle) (code : Int) (sp : Spawn) :
    ∃ l', Ringed (s.terminate a code sp) l' ∧ Grown (s.mark a code) (s.terminate a code sp) :=
  (h.quiet (.mark s ha code)).respawnShellIfNeeded a sp

/-- Only the process that ends is marked. -/
theorem node_mark_of_ne (s : State) (code : Int) (hb : b ≠ a) :
    (s.mark a code).node b = s.node b := node_modify_of_ne hb

/-- Terminating another process does not touch the current one. -/
theorem Alive.terminate (h : s.Alive) (hring : Ringed s l) (ha : a ≠ s.idle) (hcur : a ≠ s.current)
    (code : Int) (sp : Spawn) : (s.terminate a code sp).Alive := by
  obtain ⟨l', -, hgrown⟩ := hring.terminate ha code sp
  have hmark : (s.mark a code).Alive := by
    rcases h with h | h
    · exact .inl h
    refine .inr ?_
    show ((s.mark a code).node s.current).state ≠ .terminated
    rw [node_mark_of_ne s code hcur.symm]
    exact h
  exact hmark.grown (hring.quiet (.mark s ha code)) hgrown

/-- The waiting parent is on the ring. -/
theorem Ringed.isSome_of_findWaitingParent (h : Ringed s l) {child : Node} {w : Nat}
    (hw : s.findWaitingParent child = some w) : (s.nodes w).isSome := by
  unfold findWaitingParent at hw
  split at hw
  · cases hw
  have hmem := mem_of_find?_eq_some hw
  rw [h.ring_eq] at hmem
  exact (h.isSome w).2 hmem

/-- Waking the parent keeps the links. -/
theorem Quiet.wakeParent (s : State) (w : Nat) : Quiet s (s.wakeParent w) :=
  .modify fun _ => ⟨rfl, rfl, by simp⟩

/-- `process_exit`, for a process other than the idle one. -/
theorem Intact.processExit (h : s.Intact) (hidle : s.current ≠ s.idle) (code : Int) (sp : Spawn) :
    (s.processExit code sp).Intact := by
  obtain ⟨l, hring, -⟩ := h
  obtain ⟨l', hring', -⟩ := hring.terminate hidle code sp
  unfold State.processExit
  dsimp only
  split
  · next w hw =>
    refine Ringed.intact_switch (hring'.quiet (.wakeParent _ w)) ?_
    rw [(Quiet.wakeParent _ w).isSome]
    exact hring'.isSome_of_findWaitingParent hw
  · exact hring'.intact_schedule

/-- The end by a signal, for a process other than the idle one. -/
theorem Intact.terminateBySignal (h : s.Intact) (ha : a ≠ s.idle) (sig : Nat) (sp : Spawn) :
    (s.terminateBySignal a sig sp).Intact := by
  obtain ⟨l, hring, hlive⟩ := h
  obtain ⟨l', hring', hgrown⟩ := hring.terminate ha (128 + sig) sp
  have hcur : (s.terminate a (128 + sig) sp).current = s.current := hgrown.current
  unfold State.terminateBySignal
  split
  · exact ⟨l, hring, hlive⟩
  dsimp only
  split
  · next w hw =>
    have hwoken := hring'.quiet (.wakeParent _ w)
    split
    · refine hwoken.intact_switch ?_
      rw [(Quiet.wakeParent _ w).isSome]
      exact hring'.isSome_of_findWaitingParent hw
    · next hne =>
      have hne' : a ≠ s.current := fun heq => hne (heq.trans hcur.symm)
      exact ⟨l', hwoken, (hlive.terminate hring ha hne' _ sp).modify w fun _ _ => by simp⟩
  split
  · exact hring'.intact_schedule
  · next hne =>
    have hne' : a ≠ s.current := fun heq => hne (heq.trans hcur.symm)
    exact ⟨l', hring', hlive.terminate hring ha hne' _ sp⟩

/-- What a signal does to the process it is for. -/
theorem Intact.signalNode (h : s.Intact) (a sig : Nat) (sp : Spawn) :
    (s.signalNode a sig sp).Intact := by
  unfold State.signalNode
  split
  · exact h
  · next ha =>
    split
    · have hrecord : ∀ n : Node, n.state ≠ .terminated → (record n sig).state ≠ .terminated := by
        intro n hn
        simp only [record]
        split
        · simp
        · exact hn
      exact h.modify fun n => ⟨rfl, rfl, hrecord n⟩
    split
    · exact h.terminateBySignal ha sig sp
    split
    · split
      · exact h
      dsimp only
      split
      · exact h.schedule (.setState s a _ fun _ => by simp)
      · exact h.modify fun _ => ⟨rfl, rfl, by simp⟩
    split
    · split
      · exact h.modify fun _ => ⟨rfl, rfl, by simp⟩
      · exact h
    · exact h

/-- `process_signal`. -/
theorem Intact.processSignal (h : s.Intact) (pid sig : Nat) (sp : Spawn) :
    (s.processSignal pid sig sp).Intact := by
  unfold State.processSignal
  split
  · exact h
  · exact h.signalNode _ sig sp

/-! ## Waiting -/

/-- A terminated node other than the idle process can be removed. -/
theorem Intact.processRemoveFromList (hring : Ringed s l) (ha : a ∈ s.idle :: l)
    (hidle : a ≠ s.idle) (hcur : a ≠ s.current) (hlive : s.Alive) (closes : List Slot) :
    (s.processRemoveFromList a closes).Intact := by
  have hmem : a ∈ l := (mem_cons.1 ha).resolve_left hidle
  obtain ⟨l₁, l₂, rfl⟩ := append_of_mem hmem
  obtain ⟨m, q, -, hunlink⟩ := hring.unlink_eq
  refine ⟨l₁ ++ l₂, hring.processRemoveFromList hcur.symm closes, ?_⟩
  rw [State.processRemoveFromList, hunlink]
  obtain ⟨hidle', hcur', hnone⟩ := erase_frame s q (s.next a) a closes
  exact hlive.mono hcur' hidle' hnone

/-- A zombie that is found is in the ring, is waited for and has ended. -/
theorem Ringed.zombie_spec (h : Ringed s l) {callerPid target z : Nat}
    (hz : s.zombie callerPid target = some z) :
    z ∈ s.idle :: l ∧ Awaited (s.node z) callerPid target ∧ (s.node z).state = .terminated := by
  have hmem := mem_of_find?_eq_some hz
  rw [h.ring_eq] at hmem
  have hp := find?_some hz
  simp only [decide_eq_true_eq] at hp
  exact ⟨hmem, hp.1, hp.2⟩

section

variable (h : s.Intact)

include h

/-- One turn of `process_wait`. -/
theorem Intact.waitTurn (target : Nat) (closes : List Slot) :
    (s.waitTurn target closes).2.Intact := by
  obtain ⟨l, hring, hlive⟩ := id h
  unfold State.waitTurn
  dsimp only
  split
  · next z hz =>
    obtain ⟨hmem, -, hterm⟩ := hring.zombie_spec hz
    have hidle : z ≠ s.idle := fun heq => hring.idleLive (heq ▸ hterm)
    have hcur : z ≠ s.current := by
      rcases hlive with hcur | hcur
      · exact hcur ▸ hidle
      · exact fun heq => hcur (heq ▸ hterm)
    exact (Intact.processRemoveFromList hring hmem hidle hcur hlive closes).modify
      fun _ => ⟨rfl, rfl, id⟩
  split
  · exact h.schedule (.modify fun _ => ⟨rfl, rfl, by simp⟩)
  · exact h.modify fun _ => ⟨rfl, rfl, id⟩

/-- The turn after a wake-up. -/
theorem Intact.rescan (target : Nat) (closes : List Slot) : (s.rescan target closes).2.Intact := by
  refine .waitTurn (h.modify fun _ => ?_) target closes
  exact ⟨rfl, rfl, id⟩

/-- A process blocks in a slot. -/
theorem Intact.block (w : Slot) : (s.block w).Intact := by
  have hslot := Quiet.setSlots s (Function.update s.slots w (some s.current))
  exact h.schedule (hslot.trans (.modify fun _ => ⟨rfl, rfl, by simp⟩))

/-- `process_sleep`. -/
theorem Intact.processSleep (milliseconds : Nat) : (s.processSleep milliseconds).Intact := by
  unfold State.processSleep
  split
  · exact h
  exact h.schedule (.modify fun _ => ⟨rfl, rfl, by simp⟩)

/-- The process in a slot is woken. -/
theorem Intact.wake (w : Slot) : (s.wake w).Intact := h.quiet (.wake s w) fun hlive =>
    hlive.mono (current_wake s w) (Quiet.wake s w).idle (noneTerminated_wake s w)

/-! ## Creating -/

/-- A spawned process has a node. -/
theorem Intact.spawn (sp : Spawn) :
    (s.spawn sp).2.Intact ∧ ∀ a, (s.spawn sp).1 = some a → ((s.spawn sp).2.nodes a).isSome := by
  obtain ⟨l, hring, hlive⟩ := h
  obtain ⟨l', hring', hgrown, hnew⟩ := hring.spawn sp
  refine ⟨⟨l', hring', hlive.grown hring hgrown⟩, fun a ha => ?_⟩
  exact (hring'.isSome a).2 (mem_cons_of_mem _ (hnew a ha).2.1)

/-- `elf_exec`. -/
theorem Intact.elfExec (sp : Spawn) (foreground : Bool) : (s.elfExec sp foreground).Intact := by
  obtain ⟨hmade, hnew⟩ := h.spawn sp
  unfold State.elfExec
  generalize s.spawn sp = made at hmade hnew ⊢
  obtain ⟨r, s'⟩ := made
  cases r with
  | none => exact hmade
  | some a =>
    dsimp only
    split
    · obtain ⟨l, hring, -⟩ := hmade
      exact hring.intact_switch (hnew a rfl)
    · exact hmade

/-- `process_fork`. -/
theorem Intact.processFork (alloc : Option Nat) (resources cloned : Bool) :
    (s.processFork alloc resources cloned).Intact := by
  obtain ⟨l, hring, hlive⟩ := h
  unfold State.processFork
  rcases hring.processCreate alloc resources with
    ⟨s', heq, hring', hgrown⟩ | ⟨a, s', heq, hring', hgrown, hfree, -⟩
  · rw [heq]
    exact ⟨l, hring', hlive.grown hring hgrown⟩
  · rw [heq]
    have hmem : a ∈ l ++ [a] := mem_append_right _ mem_cons_self
    have hidle : a ≠ s'.idle := fun heq' => (nodup_cons.1 hring'.nodup).1 (heq' ▸ hmem)
    have hcur : a ≠ s'.current := by
      rw [hgrown.current]
      rintro rfl
      have hsome := hring.current_isSome
      rw [hfree] at hsome
      cases hsome
    have hlive' := hlive.grown hring hgrown
    dsimp only
    split
    · exact ⟨_, hring'.quiet (.modify fun _ => ⟨rfl, rfl, by simp⟩),
        hlive'.modify a fun _ _ => by simp⟩
    have hq : Quiet s' (s'.setState a .terminated) := .setState s' a _ fun heq' =>
      absurd heq' hidle
    refine .processRemoveFromList (hring'.quiet hq) (mem_cons_of_mem _ hmem) hidle hcur ?_ []
    rcases hlive' with hl | hl
    · exact .inl hl
    refine .inr ?_
    show ((s'.setState a .terminated).node s'.current).state ≠ .terminated
    rw [setState, node_modify_of_ne hcur.symm]
    exact hl

/-! ## Runs -/

/-- What the timer does to one process. -/
theorem Intact.timerVisit (a : Nat) (sp : Spawn) : (s.timerVisit a sp).Intact := by
  have hwoken : (if (s.node a).state = .sleeping ∧ (s.node a).wakeupTick ≤ s.ticks
      then s.setState a .ready else s).Intact := by
    split
    · exact h.modify fun _ => ⟨rfl, rfl, by simp⟩
    · exact h
  unfold State.timerVisit
  dsimp only
  generalize (if (s.node a).state = .sleeping ∧ (s.node a).wakeupTick ≤ s.ticks
    then s.setState a .ready else s) = s' at hwoken ⊢
  split
  · refine .processSignal (hwoken.modify fun _ => ?_) _ _ sp
    exact ⟨rfl, rfl, id⟩
  · exact hwoken

/-- `process_reap`. -/
theorem Intact.processReap (closes : Nat → List Slot) : (s.processReap closes).Intact := by
  obtain ⟨l, hring, hlive⟩ := h
  obtain ⟨l', hl'⟩ := hring.processReap hlive closes
  exact ⟨l', hl'.ring, hlive.mono hl'.current hl'.idle hl'.none⟩

/-- **A step of the running process** keeps the ring intact. -/
theorem Intact.userStep (e : Step) : (s.userStep e).Intact := by
  cases e with
  | spawn sp foreground => exact h.elfExec sp foreground
  | fork alloc resources cloned => exact h.processFork alloc resources cloned
  | exit code sp =>
    unfold State.userStep
    dsimp only
    split
    · exact h
    · next hidle => exact h.processExit hidle code sp
  | signal pid sig sp => exact h.processSignal pid sig sp
  | setSignals handlers pending inHandler alarmTick =>
    exact h.modify fun _ => ⟨rfl, rfl, id⟩
  | wait pid closes => exact h.waitTurn _ closes
  | block w =>
    unfold State.userStep
    dsimp only
    split
    · exact h.block w
    · exact h
  | sleep milliseconds =>
    unfold State.userStep
    dsimp only
    split
    · exact h
    · exact h.processSleep milliseconds
  | schedule => exact h.schedule (.refl s)
  | wake w => exact h.wake w
  | tick => exact h.quiet ⟨rfl, rfl, rfl, rfl, rfl, fun _ => rfl, fun _ => rfl, fun _ => rfl, id,
      .inl rfl⟩ id
  | timerVisit a sp =>
    unfold State.userStep
    dsimp only
    split
    · exact h.timerVisit a sp
    · exact h
  | reap closes => exact h.processReap closes
  | rescan closes => exact h
  | resume available => exact h

end

/-- A process that is not inside a call of the kernel goes on in user mode. -/
theorem step_of_user (h : (s.node s.current).cont = .user) (e : Step) :
    s.step e = s.userStep e := by
  unfold State.step
  rw [h]

/-- **One step** keeps the ring. -/
theorem Intact.step (h : s.Intact) (e : Step) : (s.step e).Intact := by
  unfold State.step
  split
  · exact h.userStep _
  · exact h.rescan _ _
  · split
    · exact h.block _
    · exact h.modify fun _ => ⟨rfl, rfl, id⟩
  · exact h

/-- `process_init` makes the idle process, alone in its ring. -/
theorem intact_processInit (ha : a ≠ 0) : (processInit a).Intact := by
  have hnodes : ∀ b, ((processInit a).nodes b).isSome ↔ b = a := by
    intro b
    rw [processInit]
    dsimp only
    rw [Function.update_apply]
    split
    · next hb => simp [hb]
    · next hb => simp [hb]
  have hnode : (processInit a).node a = idleNode a := by
    rw [node, processInit]
    dsimp only
    rw [Function.update_self]
    rfl
  refine ⟨[], ⟨⟨rfl, ?_⟩, nodup_singleton a, ?_, ?_, rfl, Nat.zero_le _, mem_cons_self, ?_, rfl,
    ?_, ?_⟩, .inl rfl⟩
  · show (processInit a).next a = a
    rw [next, hnode]
    rfl
  · intro b
    rw [hnodes, mem_singleton]
    rfl
  · exact fun h0 => ha (mem_singleton.1 h0).symm
  · show ((processInit a).node a).state ≠ .terminated
    rw [hnode]
    simp [idleNode]
  · intro _ b hb
    obtain rfl : b = a := mem_singleton.1 hb
    rw [hnode]
    exact Nat.zero_le _
  · intro _ b hb c hc _
    rw [mem_singleton.1 hb, mem_singleton.1 hc]

/-- **The ring.**  After any steps, `next` leads from `process_list` through finitely
many distinct nodes, the idle process among them, back to it; `process_count` counts
the others; and their numbers are distinct as long as `process_create` has not taken
2^32 of them.  A call of `process_reap` then ends by itself, and removes exactly the
nodes that are terminated when it comes to them. -/
theorem ringed_of_run (ha : a ≠ 0) (steps : List Step) :
    let s := Run.run step (processInit a) steps
    ∃ l, s.Ringed l ∧ ∀ closes, ∃ l',
      Reaped s [] (s.idle :: l) (reapLoop closes s.processList maxIterations s s.processList none)
        l' ∧
      (reapLoop closes s.processList maxIterations s s.processList none).2.length <
        maxIterations := by
  intro s
  obtain ⟨l, hring, hlive⟩ : s.Intact :=
    Run.invariant (fun _ e hs => hs.step e) (intact_processInit ha) steps
  refine ⟨l, hring, fun closes => ?_⟩
  obtain ⟨l', hl'⟩ := hring.processReap hlive closes
  refine ⟨l', hl', ?_⟩
  have hshort := hl'.short
  have hcount := hring.count
  have hbound := hring.bound
  simp only [maxProcesses] at hbound
  simp only [length_cons, List.length_nil] at hshort
  simp only [maxIterations] at hshort ⊢
  omega

/-- Two processes are made, and the first one is killed. -/
theorem ringed_of_run_short :
    (16 : Nat) ≠ 0 ∧
      let s := Run.run step (processInit 16)
        [.spawn ⟨some 32, true, true⟩ false, .spawn ⟨some 48, true, true⟩ false,
          .signal 1 sigkill ⟨none, false, false⟩]
      ∃ l, s.Ringed l ∧ ∀ closes, ∃ l',
        Reaped s [] (s.idle :: l)
          (reapLoop closes s.processList maxIterations s s.processList none) l' ∧
        (reapLoop closes s.processList maxIterations s s.processList none).2.length <
          maxIterations :=
  ⟨by decide, ringed_of_run (by decide) _⟩

/-! ## Numbers that run out -/

/-- A `process_create` for which the memory does not suffice. -/
def failedSpawn : Step := .spawn ⟨some 48, false, false⟩ false

/-- It takes a number and gives nothing back. -/
theorem run_failedSpawn (s : State) (hcont : (s.node s.current).cont = .user)
    (hroom : s.processCount < maxProcesses) (hfree : s.nodes 48 = none)
    (hpid : s.nextPid < 4294967296) (n : Nat) :
    Run.run step s (List.replicate n failedSpawn) =
      { s with nextPid := (s.nextPid + n) % 4294967296, taken := s.taken + n } := by
  induction n generalizing s with
  | zero =>
    rw [Nat.add_zero, Nat.mod_eq_of_lt hpid]
    rfl
  | succ n ih =>
    have hstep : s.step failedSpawn = s.takePid := by
      rw [step_of_user hcont]
      show s.elfExec ⟨some 48, false, false⟩ false = s.takePid
      rw [elfExec, spawn, processCreate, if_neg (Nat.not_le_of_lt hroom)]
      simp [hfree]
    rw [replicate_succ, Run.run_cons, hstep, ih s.takePid hcont hroom hfree
      (Nat.mod_lt _ (by decide))]
    have hnext : ((s.nextPid + 1) % 4294967296 + n) % 4294967296 =
        (s.nextPid + (n + 1)) % 4294967296 := by omega
    have htaken : s.taken + 1 + n = s.taken + (n + 1) := by omega
    simp only [takePid, hnext, htaken]

/-- One process, and as many failed attempts as bring the numbers back to its own. -/
def wrapped : List Step :=
  .spawn ⟨some 32, true, true⟩ false ::
    (List.replicate 4294967295 failedSpawn ++ [.spawn ⟨some 48, true, true⟩ false])

/-- Two processes have been created, and both have the number 1. -/
theorem same_pid_wrapped :
    let s := Run.run step (processInit 16) wrapped
    s.created < 4294967296 ∧ s.ring = [16, 32, 48] ∧ (s.node 32).pid = (s.node 48).pid := by
  intro s
  have hs : s = State.step (Run.run step (State.step (processInit 16)
      (.spawn ⟨some 32, true, true⟩ false)) (List.replicate 4294967295 failedSpawn))
      (.spawn ⟨some 48, true, true⟩ false) := by
    show Run.run step (processInit 16) wrapped = _
    rw [wrapped, Run.run_cons, Run.run_append, Run.run_cons, Run.run_nil]
  rw [hs, run_failedSpawn _ (by decide) (by decide) (by decide) (by decide)]
  decide

end State

end Scheduler
