import LufiraOS.Process.Runs

/-!
# What a step does to a process

A step leaves most nodes as they are: it may wake a process or let it run, but it
neither terminates it nor moves it to another place in its code.  `Kept` says this
of all nodes, `Change` of all but one.
-/

namespace Scheduler

open Option

namespace State

variable {s s' s₀ s₁ s₂ : State} {l : List Nat} {a : Nat} {b : Bool} {f : Node → Node}

/-! ## Nodes that are left alone -/

/-- A process is not woken out of this state: it is terminated or, if `b` is set,
stopped. -/
def Lasts (b : Bool) : PState → Prop
  | .terminated => True
  | .stopped => b = true
  | _ => False

instance (b : Bool) (st : PState) : Decidable (Lasts b st) :=
  match st with
  | .terminated => inferInstanceAs (Decidable True)
  | .stopped => inferInstanceAs (Decidable (b = true))
  | .ready | .running | .blocked | .sleeping => inferInstanceAs (Decidable False)

theorem lasts_of_terminated {st : PState} (h : st = .terminated) : Lasts b st := h ▸ trivial

/-- The process is where it was; at most it has been woken or given the processor. -/
structure NodeKept (b : Bool) (n n' : Node) : Prop where
  pid : n'.pid = n.pid
  ppid : n'.ppid = n.ppid
  cont : n'.cont = n.cont
  exitCode : n'.exitCode = n.exitCode
  lasts : Lasts b n.state → n'.state = n.state
  live : ¬ Lasts b n.state → ¬ Lasts b n'.state
  awake : n.state ≠ .blocked ∧ n.state ≠ .sleeping → n'.state ≠ .blocked ∧ n'.state ≠ .sleeping

theorem NodeKept.of_state {n n' : Node} (hpid : n'.pid = n.pid) (hppid : n'.ppid = n.ppid)
    (hcont : n'.cont = n.cont) (hcode : n'.exitCode = n.exitCode) (hstate : n'.state = n.state) :
    NodeKept b n n' :=
  ⟨hpid, hppid, hcont, hcode, fun _ => hstate, hstate ▸ id, hstate ▸ id⟩

/-- A process that may be woken is. -/
theorem NodeKept.of_live {n n' : Node} (hpid : n'.pid = n.pid) (hppid : n'.ppid = n.ppid)
    (hcont : n'.cont = n.cont) (hcode : n'.exitCode = n.exitCode) (hn : ¬ Lasts b n.state)
    (hstate : n'.state = .ready ∨ n'.state = .running) : NodeKept b n n' := by
  refine ⟨hpid, hppid, hcont, hcode, fun h => absurd h hn, fun _ => ?_, fun _ => ?_⟩
  · rcases hstate with h | h <;> simp [h, Lasts]
  · rcases hstate with h | h <;> simp [h]

theorem NodeKept.refl (n : Node) : NodeKept b n n := .of_state rfl rfl rfl rfl rfl

theorem NodeKept.trans {n₁ n₂ n₃ : Node} (h : NodeKept b n₁ n₂) (h' : NodeKept b n₂ n₃) :
    NodeKept b n₁ n₃ where
  pid := h'.pid.trans h.pid
  ppid := h'.ppid.trans h.ppid
  cont := h'.cont.trans h.cont
  exitCode := h'.exitCode.trans h.exitCode
  lasts hl := (h'.lasts ((h.lasts hl).symm ▸ hl)).trans (h.lasts hl)
  live hl := h'.live (h.live hl)
  awake hl := h'.awake (h.awake hl)

theorem NodeKept.terminated_iff {n n' : Node} (h : NodeKept b n n') :
    n'.state = .terminated ↔ n.state = .terminated := by
  constructor
  · intro heq
    by_cases hl : Lasts b n.state
    · rw [← h.lasts hl]
      exact heq
    exact absurd (lasts_of_terminated heq) (h.live hl)
  intro heq
  rw [h.lasts (lasts_of_terminated heq)]
  exact heq

/-- No pointer to a waiting process is added and no node is removed; what is new is a
child of the process that runs in `s₀`. -/
structure Kept (b : Bool) (s₀ s s' : State) : Prop where
  idle : s'.idle = s.idle
  taken : s.taken ≤ s'.taken
  slots : ∀ w x, s'.slots w = some x → s.slots w = some x
  node : ∀ x n, s.nodes x = some n → ∃ n', s'.nodes x = some n' ∧ NodeKept b n n'
  fresh : ∀ x n', s.nodes x = none → s'.nodes x = some n' →
    n'.pid = s₀.nextPid ∧ n'.ppid = (s₀.node s₀.current).pid

theorem Kept.refl (s : State) : Kept b s₀ s s :=
  ⟨rfl, Nat.le_refl _, fun _ _ => id, fun _ n hn => ⟨n, hn, .refl n⟩, fun _ _ hnone hsome => by
    rw [hnone] at hsome
    exact nomatch hsome⟩

/-- What was new before is still what it was. -/
theorem Kept.fresh_of (h : Kept b s₀ s s') {x : Nat} {n' : Node} (hsome : s'.nodes x = some n')
    (hold : ∀ n, s.nodes x = some n → n.pid = s₀.nextPid ∧ n.ppid = (s₀.node s₀.current).pid) :
    n'.pid = s₀.nextPid ∧ n'.ppid = (s₀.node s₀.current).pid := by
  cases hx : s.nodes x with
  | none => exact h.fresh x n' hx hsome
  | some n =>
    obtain ⟨n₁, hn₁, hk⟩ := h.node x n hx
    obtain rfl := some.inj (hn₁.symm.trans hsome)
    rw [hk.pid, hk.ppid]
    exact hold n hx

theorem Kept.trans (h : Kept b s₀ s s₁) (h' : Kept b s₀ s₁ s₂) : Kept b s₀ s s₂ where
  idle := h'.idle.trans h.idle
  taken := Nat.le_trans h.taken h'.taken
  slots w x hx := h.slots w x (h'.slots w x hx)
  node x n hn := by
    obtain ⟨n₁, hn₁, hk⟩ := h.node x n hn
    obtain ⟨n₂, hn₂, hk'⟩ := h'.node x n₁ hn₁
    exact ⟨n₂, hn₂, hk.trans hk'⟩
  fresh x _ hnone hsome := h'.fresh_of hsome fun n₁ => h.fresh x n₁ hnone

/-- A field that is not in the nodes or the pointers is written. -/
theorem Kept.of_eq (hnodes : s'.nodes = s.nodes) (hslots : s'.slots = s.slots)
    (hidle : s'.idle = s.idle) (htaken : s'.taken = s.taken) : Kept b s₀ s s' :=
  ⟨hidle, Nat.le_of_eq htaken.symm, fun _ _ h => hslots ▸ h, fun _ n hn =>
    ⟨n, hnodes ▸ hn, .refl n⟩, fun _ _ hnone hsome => by
    rw [hnodes, hnone] at hsome
    exact nomatch hsome⟩

theorem Kept.modify (hf : ∀ n, s.nodes a = some n → NodeKept b n (f n)) :
    Kept b s₀ s (s.modify a f) where
  idle := rfl
  taken := Nat.le_refl _
  slots _ _ := id
  node x n hn := by
    by_cases hx : x = a
    · subst hx
      exact ⟨f n, by rw [nodes_modify, if_pos rfl, hn]; rfl, hf n hn⟩
    · exact ⟨n, by rw [nodes_modify, if_neg hx, hn], .refl n⟩
  fresh x n' hnone hsome := by
    have hsome' := congrArg isSome hsome
    rw [isSome_modify, hnone] at hsome'
    cases hsome'

theorem Grown.kept (h : Grown s s') : Kept b s s s' where
  idle := h.idle
  taken := h.taken
  slots w x hx := by
    rcases h.slots w with heq | ⟨_, _, _, heq⟩
    · rw [← heq]
      exact hx
    · rw [heq] at hx
      cases hx
  node x n hn := by
    obtain ⟨y, hy⟩ := h.old x (by rw [hn]; rfl)
    exact ⟨{ n with next := y }, by rw [hy, hn]; rfl, .of_state rfl rfl rfl rfl rfl⟩
  fresh x n' hnone hsome := h.fresh x n' hnone hsome

theorem Relinked.kept (h : Relinked s s') (hslots : s'.slots = s.slots) (hidle : s'.idle = s.idle)
    (htaken : s'.taken = s.taken) : Kept b s₀ s s' where
  idle := hidle
  taken := Nat.le_of_eq htaken.symm
  slots _ _ hx := hslots ▸ hx
  node x n hn := by
    obtain ⟨y, hy⟩ := h x
    exact ⟨{ n with next := y }, by rw [hy, hn]; rfl, .of_state rfl rfl rfl rfl rfl⟩
  fresh x n' hnone hsome := by
    obtain ⟨y, hy⟩ := h x
    rw [hy, hnone] at hsome
    cases hsome

theorem Kept.node_kept (h : Kept b s₀ s s') {x : Nat} (hx : (s.nodes x).isSome) :
    NodeKept b (s.node x) (s'.node x) := by
  obtain ⟨n, hn⟩ := isSome_iff_exists.1 hx
  obtain ⟨n', hn', hk⟩ := h.node x n hn
  rw [State.node, State.node, hn, hn']
  exact hk

/-- A live node stays live. -/
theorem Kept.live (h : Kept b s₀ s s') {x : Nat} (hx : (s.nodes x).isSome)
    (hlive : ¬ Lasts b (s.node x).state) : ¬ Lasts b (s'.node x).state :=
  (h.node_kept hx).live hlive

/-! ## Pointers to waiting processes -/

/-- A pointer leads to a process that waits there. -/
def Hooked (b : Bool) (s : State) : Prop :=
  ∀ w x, s.slots w = some x → (s.node x).cont = .slot w ∧ ¬ Lasts b (s.node x).state

/-- The default node is in user mode, so a process that waits for a slot is there. -/
theorem isSome_of_cont {w : Slot} (h : (s.node a).cont = .slot w) : (s.nodes a).isSome := by
  cases hn : s.nodes a with
  | none =>
    rw [State.node, hn] at h
    cases h
  | some n => rfl

theorem Hooked.kept (h : Hooked b s) (hk : Kept b s₀ s s') : Hooked b s' := by
  intro w x hx
  obtain ⟨hcont, hlive⟩ := h w x (hk.slots w x hx)
  have hkept := hk.node_kept (isSome_of_cont hcont)
  exact ⟨hkept.cont.trans hcont, hkept.live hlive⟩

/-- A process that goes on in user mode is not recorded. -/
theorem Hooked.ne_of_user (h : Hooked b s) (hcont : (s.node a).cont = .user) (w : Slot) :
    s.slots w ≠ some a := by
  intro hw
  rw [(h w a hw).1] at hcont
  cases hcont

/-- The state of a node that can be woken is set to one that is neither terminated nor
stopped. -/
theorem Kept.setState {st : PState} (hlive : ¬ Lasts b (s.node a).state)
    (hst : st = .ready ∨ st = .running) : Kept b s₀ s (s.setState a st) := by
  refine .modify fun n hn => ?_
  rw [State.node, hn] at hlive
  exact .of_live rfl rfl rfl rfl hlive hst

theorem Kept.wake (h : Hooked b s) (w : Slot) : Kept b s₀ s (s.wake w) := by
  unfold State.wake
  split
  · exact .refl s
  · next x hx =>
    refine (Kept.setState (h w x hx).2 (.inl rfl)).trans ?_
    refine ⟨rfl, Nat.le_refl _, fun v y hy => ?_, fun y n hn => ⟨n, hn, .refl n⟩,
      fun y n hnone hsome => ?_⟩
    · dsimp only at hy
      rw [Function.update_apply] at hy
      split at hy
      · cases hy
      · exact hy
    · have hsome' : (s.setState x .ready).nodes y = some n := hsome
      rw [hnone] at hsome'
      cases hsome'

theorem Kept.wakeAll (h : Hooked b s) (ws : List Slot) : Kept b s₀ s (s.wakeAll ws) := by
  induction ws generalizing s with
  | nil => exact .refl s
  | cons w ws ih =>
    have hwake : Kept b s₀ s (s.wake w) := .wake h w
    exact hwake.trans (ih (h.kept hwake))

/-! ## Switching -/

theorem Kept.switchToProcess (ha : (s.nodes a).isSome) (hlive : ¬ Lasts b (s.node a).state) :
    Kept b s₀ s (s.switchToProcess a) := by
  have hprev : Kept b s₀ s (if (s.node s.current).state = .running
      then s.setState s.current .ready else s) := by
    split
    · next hrun => exact .setState (by simp [hrun, Lasts]) (.inl rfl)
    · exact .refl s
  exact (hprev.trans (.setState (hprev.live ha hlive) (.inr rfl))).trans (.of_eq rfl rfl rfl rfl)

/-- `schedule` switches to a process that is ready, or to the idle process. -/
theorem Ringed.schedule_eq (h : Ringed s l) :
    s.schedule = s ∨ ∃ x, s.schedule = s.switchToProcess x ∧ (s.nodes x).isSome ∧
      (x = s.idle ∨ (s.node x).state = .ready) := by
  rcases schedule_cases s with ⟨heq, -⟩ | ⟨heq, -⟩ | ⟨x, heq, hx, hready, -⟩
  · exact .inl heq
  · exact .inr ⟨_, heq, h.idle_isSome, .inl rfl⟩
  · exact .inr ⟨x, heq, (h.isSome x).2 (hx ▸ h.pick_mem _ (h.next_mem h.current)), .inr hready⟩

theorem Kept.schedule (h : Ringed s l) (hidle : ¬ Lasts b (s.node s.idle).state) :
    Kept b s₀ s s.schedule := by
  rcases h.schedule_eq with heq | ⟨x, heq, hsome, hx⟩
  · rw [heq]
    exact .refl s
  rw [heq]
  refine .switchToProcess hsome ?_
  rcases hx with rfl | hready
  · exact hidle
  · simp [hready, Lasts]

/-- The process that runs is neither terminated nor stopped. -/
abbrev Awake (b : Bool) (s : State) : Prop := ¬ Lasts b (s.node s.current).state

theorem live_switchToProcess (ha : (s.nodes a).isSome) : Awake b (s.switchToProcess a) := by
  show ¬ Lasts b ((s.switchToProcess a).node a).state
  simp [node_switchToProcess_self ha, Lasts]

theorem Ringed.live_schedule (h : Ringed s l) (hidle : ¬ Lasts b (s.node s.idle).state) :
    Awake b s.schedule := by
  unfold Awake
  rcases schedule_cases s with ⟨heq, hcur⟩ | ⟨heq, -⟩ | ⟨x, heq, hx, -⟩
  · rw [heq]
    rcases hcur with hcur | hcur | hcur
    · exact hcur ▸ hidle
    · simp [hcur, Lasts]
    · simp [hcur, Lasts]
  · rw [heq]
    exact live_switchToProcess h.idle_isSome
  · rw [heq]
    exact live_switchToProcess ((h.isSome x).2 (hx ▸ h.pick_mem _ (h.next_mem h.current)))

/-! ## One node that is not left alone -/

/-- The node `a` changes as `P` says, terminated nodes in `drop` are removed, and the
others are left alone. -/
structure Change (b : Bool) (a : Nat) (drop : Nat → Prop) (P : Node → Node → Prop)
    (s₀ s s' : State) : Prop where
  idle : s'.idle = s.idle
  taken : s.taken ≤ s'.taken
  slots : ∀ w x, x ≠ a → s'.slots w = some x → s.slots w = some x
  hooked : ∀ w, s'.slots w = some a → (s'.node a).cont = .slot w ∧ ¬ Lasts b (s'.node a).state
  self : ∀ n, s.nodes a = some n → ∃ n', s'.nodes a = some n' ∧ P n n'
  others : ∀ x n, x ≠ a → s.nodes x = some n →
    (n.state = .terminated ∧ drop x ∧ s'.nodes x = none) ∨
      ∃ n', s'.nodes x = some n' ∧ NodeKept b n n'
  fresh : ∀ x n', s.nodes x = none → s'.nodes x = some n' →
    n'.pid = s₀.nextPid ∧ n'.ppid = (s₀.node s₀.current).pid

variable {drop : Nat → Prop} {P : Node → Node → Prop}

theorem Change.kept_right (h : Change b a (fun _ => False) P s₀ s s₁) (hk : Kept b s₀ s₁ s₂)
    (hP : ∀ n n₁ n₂, P n n₁ → NodeKept b n₁ n₂ → P n n₂) (ha : (s.nodes a).isSome) :
    Change b a (fun _ => False) P s₀ s s₂ where
  idle := hk.idle.trans h.idle
  taken := Nat.le_trans h.taken hk.taken
  slots w x hx hw := h.slots w x hx (hk.slots w x hw)
  hooked w hw := by
    obtain ⟨n, hn⟩ := isSome_iff_exists.1 ha
    obtain ⟨n₁, hn₁, -⟩ := h.self n hn
    have hkept := hk.node_kept (x := a) (by rw [hn₁]; rfl)
    obtain ⟨hcont, hlive⟩ := h.hooked w (hk.slots w a hw)
    exact ⟨hkept.cont.trans hcont, hkept.live hlive⟩
  self n hn := by
    obtain ⟨n₁, hn₁, hp⟩ := h.self n hn
    obtain ⟨n₂, hn₂, hkept⟩ := hk.node a n₁ hn₁
    exact ⟨n₂, hn₂, hP n n₁ n₂ hp hkept⟩
  others x n hx hn := by
    rcases h.others x n hx hn with ⟨-, hdrop, -⟩ | ⟨n₁, hn₁, hkept⟩
    · exact hdrop.elim
    · obtain ⟨n₂, hn₂, hkept'⟩ := hk.node x n₁ hn₁
      exact .inr ⟨n₂, hn₂, hkept.trans hkept'⟩
  fresh x _ hnone hsome := hk.fresh_of hsome fun n₁ => h.fresh x n₁ hnone

theorem Change.kept_left (hk : Kept b s₀ s s₁) (h : Change b a drop P s₀ s₁ s₂)
    (hP : ∀ n n₁ n₂, NodeKept b n n₁ → P n₁ n₂ → P n n₂) (ha : (s.nodes a).isSome) :
    Change b a drop P s₀ s s₂ where
  idle := h.idle.trans hk.idle
  taken := Nat.le_trans hk.taken h.taken
  slots w x hx hw := hk.slots w x (h.slots w x hx hw)
  hooked := h.hooked
  self n hn := by
    obtain ⟨n₁, hn₁, hkept⟩ := hk.node a n hn
    obtain ⟨n₂, hn₂, hp⟩ := h.self n₁ hn₁
    exact ⟨n₂, hn₂, hP n n₁ n₂ hkept hp⟩
  others x n hx hn := by
    obtain ⟨n₁, hn₁, hkept⟩ := hk.node x n hn
    rcases h.others x n₁ hx hn₁ with ⟨hterm, hdrop, hnone⟩ | ⟨n₂, hn₂, hkept'⟩
    · exact .inl ⟨hkept.terminated_iff.1 hterm, hdrop, hnone⟩
    · exact .inr ⟨n₂, hn₂, hkept.trans hkept'⟩
  fresh x n' hnone hsome := by
    cases hx : s₁.nodes x with
    | none => exact h.fresh x n' hx hsome
    | some n₁ =>
      have hxa : x ≠ a := by
        rintro rfl
        rw [hnone] at ha
        cases ha
      rcases h.others x n₁ hxa hx with ⟨-, -, hgone⟩ | ⟨n₂, hn₂, hkept⟩
      · rw [hgone] at hsome
        cases hsome
      obtain rfl := some.inj (hn₂.symm.trans hsome)
      rw [hkept.pid, hkept.ppid]
      exact hk.fresh x n₁ hnone hx

theorem Change.drop_mono {drop' : Nat → Prop} (h : Change b a drop P s₀ s s')
    (hdrop : ∀ x, drop x → drop' x) : Change b a drop' P s₀ s s' := by
  refine { h with others := fun x n hx hn => ?_ }
  rcases h.others x n hx hn with ⟨hterm, hd, hnone⟩ | hkept
  · exact .inl ⟨hterm, hdrop x hd, hnone⟩
  · exact .inr hkept

/-- Only the number and the creator that `s₀` gives to new nodes count. -/
theorem Kept.base (h : Kept b s₀ s s') (hpid : s₁.nextPid = s₀.nextPid)
    (hppid : (s₁.node s₁.current).pid = (s₀.node s₀.current).pid) : Kept b s₁ s s' := by
  refine { h with fresh := fun x n' hnone hsome => ?_ }
  rw [hpid, hppid]
  exact h.fresh x n' hnone hsome

theorem Change.base (h : Change b a drop P s₀ s s') (hpid : s₁.nextPid = s₀.nextPid)
    (hppid : (s₁.node s₁.current).pid = (s₀.node s₀.current).pid) : Change b a drop P s₁ s s' := by
  refine { h with fresh := fun x n' hnone hsome => ?_ }
  rw [hpid, hppid]
  exact h.fresh x n' hnone hsome

/-- The fields of one node are written, and pointers to it are cleared. -/
theorem Change.modify (hP : ∀ n, s.nodes a = some n → P n (f n)) (slots : Slot → Option Nat)
    (hslots : ∀ w x, x ≠ a → slots w = some x → s.slots w = some x)
    (hhooked : ∀ w, slots w = some a →
      ((s.modify a f).node a).cont = .slot w ∧ ¬ Lasts b ((s.modify a f).node a).state) :
    Change b a drop P s₀ s { s.modify a f with slots := slots } where
  idle := rfl
  taken := Nat.le_refl _
  slots := hslots
  hooked := hhooked
  self n hn := ⟨f n, by
    show (s.modify a f).nodes a = _
    rw [nodes_modify, if_pos rfl, hn]
    rfl, hP n hn⟩
  others x n hx hn := .inr ⟨n, by
    show (s.modify a f).nodes x = _
    rw [nodes_modify, if_neg hx, hn], .refl n⟩
  fresh x n' hnone hsome := by
    have hsome' : ((s.modify a f).nodes x).isSome = true := congrArg isSome hsome
    rw [isSome_modify, hnone] at hsome'
    cases hsome'

/-- A live process is not one of the terminated ones. -/
theorem of_live {n : Node} {q r : Prop} (hlive : ¬ Lasts b n.state)
    (h : n.state = .terminated ∧ q ∨ r) : r :=
  h.resolve_left fun hterm => hlive (lasts_of_terminated hterm.1)

/-- What is live is neither changed nor removed. -/
theorem Change.node_kept (h : Change b a drop P s₀ s s') {x : Nat} (hxa : x ≠ a)
    (hx : (s.nodes x).isSome) (hlive : ¬ Lasts b (s.node x).state) :
    NodeKept b (s.node x) (s'.node x) := by
  obtain ⟨n, hn⟩ := isSome_iff_exists.1 hx
  rw [node, hn] at hlive
  obtain ⟨n', hn', hk⟩ := of_live hlive (h.others x n hxa hn)
  rw [node, node, hn, hn']
  exact hk

theorem Change.hooked_of (h : Change b a drop P s₀ s s') (hs : Hooked b s) : Hooked b s' := by
  intro w x hx
  by_cases hxa : x = a
  · rw [hxa] at hx ⊢
    exact h.hooked w hx
  obtain ⟨hcont, hlive⟩ := hs w x (h.slots w x hxa hx)
  have hkept := h.node_kept hxa (isSome_of_cont hcont) hlive
  exact ⟨hkept.cont.trans hcont, hkept.live hlive⟩

end State

end Scheduler
