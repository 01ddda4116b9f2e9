import Mathlib.Data.List.Nodup
import LufiraOS.Lib.Run
import LufiraOS.Process.Core

/-!
# The ring of processes

Whatever the processes do, `next` leads from `process_list` through distinct nodes,
the idle process first, back to `process_list`.  Almost every function only writes
fields that the ring does not depend on (`Quiet`); `process_create` puts a node in,
and `process_remove_from_list` and `process_reap` take nodes out.
-/

namespace Scheduler

open Cycle List Function

namespace State

variable {s s' s₁ s₂ : State} {l : List Nat} {a b : Nat} {f : Node → Node}
  {m l₂ : List Nat} {n : Node}

/-! ## Reading what was written -/

/-- `modify` changes the node at one place. -/
theorem nodes_modify (s : State) (a : Nat) (f : Node → Node) (b : Nat) :
    (s.modify a f).nodes b = if b = a then (s.nodes a).map f else s.nodes b := by
  by_cases hb : b = a
  · rw [if_pos hb, hb]
    exact update_self ..
  · rw [if_neg hb]
    exact update_of_ne hb ..

theorem node_modify_of_ne (h : b ≠ a) : (s.modify a f).node b = s.node b := by
  rw [node, nodes_modify, if_neg h, node]

theorem node_modify_self (h : (s.nodes a).isSome) : (s.modify a f).node a = f (s.node a) := by
  obtain ⟨n, hn⟩ := Option.isSome_iff_exists.1 h
  rw [node, nodes_modify, if_pos rfl, node, hn]
  rfl

theorem isSome_modify (s : State) (a : Nat) (f : Node → Node) (b : Nat) :
    ((s.modify a f).nodes b).isSome = (s.nodes b).isSome := by
  rw [nodes_modify]
  split
  · next hb => rw [Option.isSome_map, hb]
  · rfl

/-- A node is the same, or it is the one that `f` is applied to. -/
theorem node_modify_cases (s : State) (a : Nat) (f : Node → Node) (b : Nat) :
    (s.modify a f).node b = s.node b ∨ b = a ∧ (s.modify a f).node b = f (s.node b) := by
  by_cases hb : b = a
  · subst hb
    cases hn : s.nodes b with
    | none =>
      left
      rw [node, nodes_modify, if_pos rfl, hn, node, hn]
      rfl
    | some n => exact .inr ⟨rfl, node_modify_self (by rw [hn]; rfl)⟩
  · exact .inl (node_modify_of_ne hb)

/-- A field that `f` keeps is kept everywhere. -/
theorem field_modify {β : Type} {g : Node → β} (hf : ∀ n, g (f n) = g n) (s : State) (a b : Nat) :
    g ((s.modify a f).node b) = g (s.node b) := by
  rcases node_modify_cases s a f b with h | ⟨-, h⟩
  · rw [h]
  · rw [h, hf]

/-! ## What the ring does not depend on -/

/-- The list is the same, and the idle process has not been terminated. -/
structure Quiet (s s' : State) : Prop where
  list : s'.processList = s.processList
  idle : s'.idle = s.idle
  count : s'.processCount = s.processCount
  nextPid : s'.nextPid = s.nextPid
  taken : s'.taken = s.taken
  isSome : ∀ a, (s'.nodes a).isSome = (s.nodes a).isSome
  next : ∀ a, s'.next a = s.next a
  pid : ∀ a, (s'.node a).pid = (s.node a).pid
  idleLive : (s.node s.idle).state ≠ .terminated → (s'.node s.idle).state ≠ .terminated
  current : s'.current = s.current ∨ (s.nodes s'.current).isSome

theorem Quiet.refl (s : State) : Quiet s s :=
  ⟨rfl, rfl, rfl, rfl, rfl, fun _ => rfl, fun _ => rfl, fun _ => rfl, id, .inl rfl⟩

/-- Two quiet steps, one after the other. -/
theorem Quiet.trans (h₁ : Quiet s s₁) (h₂ : Quiet s₁ s₂) : Quiet s s₂ where
  list := h₂.list.trans h₁.list
  idle := h₂.idle.trans h₁.idle
  count := h₂.count.trans h₁.count
  nextPid := h₂.nextPid.trans h₁.nextPid
  taken := h₂.taken.trans h₁.taken
  isSome a := (h₂.isSome a).trans (h₁.isSome a)
  next a := (h₂.next a).trans (h₁.next a)
  pid a := (h₂.pid a).trans (h₁.pid a)
  idleLive h := h₁.idle ▸ h₂.idleLive (h₁.idle.symm ▸ h₁.idleLive h)
  current := by
    rcases h₂.current with hcur | hcur
    · rw [hcur]
      exact h₁.current
    · rw [h₁.isSome] at hcur
      exact .inr hcur

/-- A node keeps its link and number, and the idle process does not end. -/
theorem Quiet.modify (hf : ∀ n, (f n).next = n.next ∧ (f n).pid = n.pid ∧
    (a = s.idle → n.state ≠ .terminated → (f n).state ≠ .terminated)) : Quiet s (s.modify a f) where
  list := rfl
  idle := rfl
  count := rfl
  nextPid := rfl
  taken := rfl
  isSome := isSome_modify s a f
  next := field_modify (fun n => (hf n).1) s a
  pid := field_modify (fun n => (hf n).2.1) s a
  idleLive h := by
    rcases node_modify_cases s a f s.idle with hsame | ⟨ha, hsame⟩
    · rw [hsame]
      exact h
    · rw [hsame]
      exact (hf _).2.2 ha.symm h
  current := .inl rfl

theorem Quiet.setState (s : State) (a : Nat) (st : PState) (h : a = s.idle → st ≠ .terminated) :
    Quiet s (s.setState a st) :=
  .modify fun _ => ⟨rfl, rfl, fun ha _ => h ha⟩

theorem Quiet.setSlots (s : State) (slots : Slot → Option Nat) :
    Quiet s { s with slots := slots } :=
  ⟨rfl, rfl, rfl, rfl, rfl, fun _ => rfl, fun _ => rfl, fun _ => rfl, id, .inl rfl⟩

theorem Quiet.setCurrent (s : State) (h : (s.nodes a).isSome) : Quiet s { s with current := a } :=
  ⟨rfl, rfl, rfl, rfl, rfl, fun _ => rfl, fun _ => rfl, fun _ => rfl, id, .inr h⟩

/-- A wake-up leaves the ring alone. -/
theorem Quiet.wake (s : State) (w : Slot) : Quiet s (s.wake w) := by
  rw [State.wake]
  split
  · exact .refl s
  · next a _ => exact (Quiet.setState s a .ready (by simp)).trans (.setSlots _ _)

theorem Quiet.wakeAll (s : State) (ws : List Slot) : Quiet s (s.wakeAll ws) := by
  induction ws generalizing s with
  | nil => exact .refl s
  | cons w ws ih => exact (Quiet.wake s w).trans (ih _)

/-- So does a switch to a process that is there. -/
theorem Quiet.switchToProcess (s : State) (h : (s.nodes a).isSome) :
    Quiet s (s.switchToProcess a) := by
  have hprev : Quiet s (if (s.node s.current).state = .running then s.setState s.current .ready
      else s) := by
    split
    · exact .setState s _ _ (by simp)
    · exact .refl s
  refine hprev.trans ((Quiet.setState _ a .running (by simp)).trans (.setCurrent _ ?_))
  rw [(Quiet.setState _ a .running (by simp)).isSome, hprev.isSome]
  exact h

theorem current_wake (s : State) (w : Slot) : (s.wake w).current = s.current := by
  rw [wake]
  split <;> rfl

theorem current_wakeAll (s : State) (ws : List Slot) : (s.wakeAll ws).current = s.current := by
  induction ws generalizing s with
  | nil => rfl
  | cons w ws ih => exact (ih _).trans (current_wake s w)

/-! ## The invariant -/

/-- `next` leads from `process_list`, which is the idle process, through the nodes of
`l` and back; these are all nodes there are. -/
structure Ringed (s : State) (l : List Nat) : Prop where
  path : Path s.next s.processList (s.idle :: l) s.processList
  nodup : (s.idle :: l).Nodup
  isSome : ∀ a, (s.nodes a).isSome ↔ a ∈ s.idle :: l
  nonzero : 0 ∉ s.idle :: l
  count : s.processCount = l.length
  bound : s.processCount ≤ maxProcesses
  current : s.current ∈ s.idle :: l
  idleLive : (s.node s.idle).state ≠ .terminated
  nextPid : s.nextPid = (s.taken + 1) % 4294967296
  numbers : s.taken < 4294967296 → ∀ a ∈ s.idle :: l, (s.node a).pid ≤ s.taken
  distinct : s.taken < 4294967296 → ∀ a ∈ s.idle :: l, ∀ b ∈ s.idle :: l,
    (s.node a).pid = (s.node b).pid → a = b

/-- The process that runs has not been terminated. -/
def Alive (s : State) : Prop := s.current = s.idle ∨ (s.node s.current).state ≠ .terminated

section

variable (h : Ringed s l)

include h

/-- The list begins at the idle process. -/
theorem Ringed.list_eq : s.processList = s.idle := h.path.1

/-- A quiet step keeps the ring. -/
theorem Ringed.quiet (hq : Quiet s s') : Ringed s' l where
  path := by
    rw [hq.list, hq.idle]
    exact h.path.congr fun a _ => hq.next a
  nodup := hq.idle ▸ h.nodup
  isSome a := by
    rw [hq.isSome, hq.idle]
    exact h.isSome a
  nonzero := hq.idle ▸ h.nonzero
  count := hq.count.trans h.count
  bound := hq.count ▸ h.bound
  current := by
    rw [hq.idle]
    rcases hq.current with hcur | hcur
    · rw [hcur]
      exact h.current
    · exact (h.isSome _).1 hcur
  idleLive := hq.idle ▸ hq.idleLive h.idleLive
  nextPid := by
    rw [hq.nextPid, hq.taken]
    exact h.nextPid
  numbers hlt a ha := by
    rw [hq.taken] at hlt ⊢
    rw [hq.pid]
    exact h.numbers hlt a (hq.idle ▸ ha)
  distinct hlt a ha b hb hpid := by
    rw [hq.taken] at hlt
    rw [hq.pid, hq.pid] at hpid
    exact h.distinct hlt a (hq.idle ▸ ha) b (hq.idle ▸ hb) hpid

/-- The links do not leave the ring. -/
theorem Ringed.next_mem (ha : a ∈ s.idle :: l) : s.next a ∈ s.idle :: l := by
  have hpath := h.path
  exact hpath.next_mem_cycle ha

/-- Behind a node comes the next one of the list, or the first. -/
theorem Ringed.next_eq {p : Nat}
    (hsplit : s.idle :: l = m ++ p :: l₂) : s.next p = l₂.headD s.idle := by
  have hpath := h.path
  rw [hsplit] at hpath
  obtain ⟨y, -, rfl, hafter⟩ := path_append.1 hpath
  cases l₂ with
  | nil => exact hafter.trans h.list_eq
  | cons z l₂ => exact hafter.1

/-- No process but the idle one is linked to itself. -/
theorem Ringed.next_ne_self {p : Nat}
    (hsplit : s.idle :: l = m ++ p :: l₂) (hp : p ≠ s.idle) : s.next p ≠ p := by
  rw [h.next_eq hsplit]
  cases l₂ with
  | nil => exact hp.symm
  | cons z l₂ =>
    have hnd := h.nodup
    rw [hsplit, nodup_append, nodup_cons] at hnd
    exact fun heq => hnd.2.1.1 (heq ▸ mem_cons_self)

/-- The walks of the code meet the nodes of the ring, in order. -/
theorem Ringed.ring_eq : s.ring = s.idle :: l := by
  refine collect_of_path h.path ?_ ?_
  · rw [h.list_eq]
    exact (nodup_cons.1 h.nodup).1
  have hcount := h.count
  have hbound := h.bound
  simp only [maxProcesses] at hbound
  simp only [maxIterations]
  omega

theorem Ringed.current_isSome : (s.nodes s.current).isSome := (h.isSome _).2 h.current

theorem Ringed.idle_isSome : (s.nodes s.idle).isSome := (h.isSome _).2 mem_cons_self

end

/-! ## Switching -/

theorem node_switchToProcess_self (h : (s.nodes a).isSome) :
    ((s.switchToProcess a).node a).state = .running := by
  have hsome : ((if (s.node s.current).state = .running then s.setState s.current .ready
      else s).nodes a).isSome := by
    split
    · rw [setState, isSome_modify]
      exact h
    · exact h
  exact congrArg Node.state (node_modify_self hsome)

theorem alive_switchToProcess (h : (s.nodes a).isSome) : (s.switchToProcess a).Alive := by
  refine .inr ?_
  have hrun := node_switchToProcess_self h
  have hcur : (s.switchToProcess a).current = a := rfl
  rw [hcur, hrun]
  simp

/-- The search of `schedule` ends in the ring. -/
theorem Ringed.pick_mem (h : Ringed s l) (n : Nat) (ha : a ∈ s.idle :: l) :
    (s.pick n a).1 ∈ s.idle :: l := by
  induction n generalizing a with
  | zero => exact ha
  | succ n ih =>
    rw [pick]
    split
    · dsimp only
      split
      · exact h.next_mem ha
      · exact ih (h.next_mem ha)
    · exact ha

/-- `schedule` goes on with the current process or switches to another one. -/
theorem schedule_cases (s : State) :
    (s.schedule = s ∧ (s.current = s.idle ∨ (s.node s.current).state = .running ∨
      (s.node s.current).state = .ready)) ∨
    (s.schedule = s.switchToProcess s.idle ∧ s.idle ≠ s.current) ∨
    ∃ a, s.schedule = s.switchToProcess a ∧ a = (s.pick 100 (s.next s.current)).1 ∧
      (s.node a).state = .ready ∧ a ≠ s.idle ∧ a ≠ s.current := by
  rw [schedule]
  generalize hp : s.pick 100 (s.next s.current) = found
  obtain ⟨next, left⟩ := found
  dsimp only
  split
  · split
    · next hrun => exact .inl ⟨rfl, .inr (.inl hrun)⟩
    split
    · next hne => exact .inr (.inl ⟨rfl, hne⟩)
    · next heq => exact .inl ⟨rfl, .inl (not_not.1 heq).symm⟩
  · next hfound =>
    have hready : (s.node next).state = .ready := by
      by_contra hne
      exact hfound (.inl hne)
    split
    · next hcur => exact .inl ⟨rfl, .inr (.inr (hcur ▸ hready))⟩
    · next hcur =>
      exact .inr (.inr ⟨next, rfl, rfl, hready, fun hidle => hfound (.inr (.inl hidle)), hcur⟩)

/-- `schedule` is quiet, and the process that runs then is alive. -/
theorem Ringed.schedule (h : Ringed s l) : Quiet s s.schedule ∧ s.schedule.Alive := by
  rcases schedule_cases s with ⟨heq, hcur⟩ | ⟨heq, -⟩ | ⟨a, heq, ha, -⟩
  · rw [heq]
    refine ⟨.refl s, ?_⟩
    rcases hcur with hcur | hcur | hcur
    · exact .inl hcur
    · exact .inr (by rw [hcur]; simp)
    · exact .inr (by rw [hcur]; simp)
  · rw [heq]
    exact ⟨.switchToProcess s h.idle_isSome, alive_switchToProcess h.idle_isSome⟩
  have hsome : (s.nodes a).isSome := (h.isSome a).2 (ha ▸ h.pick_mem _ (h.next_mem h.current))
  rw [heq]
  exact ⟨.switchToProcess s hsome, alive_switchToProcess hsome⟩

/-! ## Putting a node in -/

/-- The last node of the ring. -/
theorem Ringed.last (h : Ringed s l) : ∃ m x, s.idle :: l = m ++ [x] ∧
      seek s.next (fun b => s.next b = 0 ∨ s.next b = s.processList) maxIterations s.processList =
        x := by
  obtain ⟨m, x, hsplit⟩ : ∃ m x, s.idle :: l = m ++ [x] :=
    (eq_nil_or_concat' (s.idle :: l)).resolve_left (cons_ne_nil _ _)
  refine ⟨m, x, hsplit, ?_⟩
  have hpath := h.path
  rw [hsplit] at hpath
  refine seek_of_path hpath (fun y hy => ?_) (.inr (path_concat.1 hpath).2) ?_
  · have hmem := hpath.next_mem hy
    rw [← hsplit] at hmem
    have hl : s.next y ∈ l := hmem
    rintro (hzero | hfirst)
    · exact h.nonzero (hzero ▸ mem_cons_of_mem _ hl)
    · rw [hfirst, h.list_eq] at hl
      exact (nodup_cons.1 h.nodup).1 hl
  have hlen := congrArg List.length hsplit
  have hcount := h.count
  have hbound := h.bound
  simp only [maxProcesses] at hbound
  simp only [length_cons, length_append, List.length_nil] at hlen
  simp only [maxIterations]
  omega

/-- Only pointers of the list are written. -/
def Relinked (s s' : State) : Prop :=
  ∀ b, ∃ x, s'.nodes b = (s.nodes b).map fun n => { n with next := x }

/-- A new link changes nothing else. -/
theorem relinked_setNext (s : State) (a b : Nat) : Relinked s (s.setNext a b) := by
  intro c
  by_cases hc : c = a
  · exact ⟨b, by rw [setNext, nodes_modify, if_pos hc, hc]⟩
  refine ⟨(s.node c).next, ?_⟩
  rw [setNext, nodes_modify, if_neg hc, node]
  cases s.nodes c <;> rfl

theorem next_setNext_of_ne {c : Nat} (h : b ≠ a) : (s.setNext a c).next b = s.next b := by
  rw [next, setNext, node_modify_of_ne h, next]

theorem next_setNext_self {c : Nat} (h : (s.nodes a).isSome) : (s.setNext a c).next a = c := by
  rw [next, setNext, node_modify_self h]

theorem Relinked.isSome (h : Relinked s s') (b : Nat) :
    (s'.nodes b).isSome = (s.nodes b).isSome := by
  obtain ⟨x, hx⟩ := h b
  rw [hx, Option.isSome_map]

theorem Relinked.node (h : Relinked s s') (b : Nat) :
    ∃ x, s'.node b = { s.node b with next := x } := by
  obtain ⟨x, hx⟩ := h b
  rw [State.node, State.node, hx]
  cases s.nodes b with
  | none => exact ⟨_, rfl⟩
  | some n => exact ⟨x, rfl⟩

/-- What does not depend on the links is as before. -/
theorem Relinked.field {β : Type} {g : Node → β} (h : Relinked s s')
    (hg : ∀ n x, g { n with next := x } = g n) (b : Nat) : g (s'.node b) = g (s.node b) := by
  obtain ⟨x, hx⟩ := h.node b
  rw [hx, hg]

/-- What `link` writes: the new node, and the pointer of the last one. -/
theorem nodes_link (s : State) (a : Nat) (n : Node) (b : Nat) : (s.link a n).nodes b =
      if b = seek s.next (fun b => s.next b = 0 ∨ s.next b = s.processList) maxIterations
          s.processList then
        (if b = a then some n else s.nodes b).map fun n => { n with next := a }
      else if b = a then some n else s.nodes b := by
  have hput : ∀ c, (update s.nodes a (some n)) c = if c = a then some n else s.nodes c :=
    fun c => update_apply ..
  rw [← hput b]
  generalize hlast : seek s.next (fun b => s.next b = 0 ∨ s.next b = s.processList) maxIterations
    s.processList = last
  have hlink : (s.link a n).nodes = ({ s with
      nodes := update s.nodes a (some n)
      slots := update s.slots (.mailbox a) none }.setNext last a).nodes := by
    rw [State.link, hlast]
  rw [hlink, setNext, nodes_modify]
  split
  · next hb => rw [hb]
  · rfl

/-- Other nodes keep everything but their pointer. -/
theorem nodes_link_of_ne (s : State) (hb : b ≠ a) :
    ∃ x, (s.link a n).nodes b = (s.nodes b).map fun n => { n with next := x } := by
  rw [nodes_link, if_neg hb]
  split
  · exact ⟨a, rfl⟩
  refine ⟨(s.node b).next, ?_⟩
  rw [node]
  cases s.nodes b <;> rfl

/-- The other processes keep all but their links. -/
theorem node_link_of_ne (s : State) (hb : b ≠ a) :
    ∃ x, (s.link a n).node b = { s.node b with next := x } := by
  obtain ⟨x, hx⟩ := nodes_link_of_ne s (n := n) hb
  rw [node, node, hx]
  cases s.nodes b with
  | none => exact ⟨_, rfl⟩
  | some n => exact ⟨x, rfl⟩

/-- A free place is not in the ring. -/
theorem Ringed.not_mem_of_free (h : Ringed s l) (hfree : s.nodes a = none) : a ∉ s.idle :: l := by
  intro hmem
  rw [← h.isSome, hfree] at hmem
  cases hmem

/-- The nodes after a process was linked behind the last one, `x`. -/
theorem Ringed.link_nodes (h : Ringed s l) (hfree : s.nodes a = none) (n : Node) :
    ∃ m x, s.idle :: l = m ++ [x] ∧ x ≠ a ∧ ∀ b, (s.link a n).nodes b =
      if b = x then (s.nodes x).map (fun n => { n with next := a })
      else if b = a then some n else s.nodes b := by
  obtain ⟨m, x, hsplit, hlast⟩ := h.last
  have hxmem : x ∈ s.idle :: l := hsplit ▸ mem_append_right _ mem_cons_self
  have hxa : x ≠ a := fun heq => h.not_mem_of_free hfree (heq ▸ hxmem)
  refine ⟨m, x, hsplit, hxa, fun b => ?_⟩
  rw [nodes_link, hlast]
  split
  · next hb => rw [hb, if_neg hxa]
  · rfl

theorem Ringed.link_node_self (h : Ringed s l) (hfree : s.nodes a = none) (n : Node) :
    (s.link a n).node a = n := by
  obtain ⟨m, x, -, hxa, hnodes⟩ := h.link_nodes hfree n
  rw [node, hnodes, if_neg hxa.symm, if_pos rfl]
  rfl

/-- One place more is taken. -/
theorem Ringed.link_isSome (h : Ringed s l) (hfree : s.nodes a = none) (n : Node) (b : Nat) :
    ((s.link a n).nodes b).isSome ↔ (s.nodes b).isSome ∨ b = a := by
  obtain ⟨m, x, -, hxa, hnodes⟩ := h.link_nodes hfree n
  rw [hnodes]
  by_cases hbx : b = x
  · rw [if_pos hbx, Option.isSome_map, hbx]
    exact ⟨.inl, fun hb => hb.resolve_right hxa⟩
  rw [if_neg hbx]
  by_cases hba : b = a <;> simp [hba]

/-- The ring with the new process at its end. -/
theorem Ringed.link_path (h : Ringed s l) (hfree : s.nodes a = none)
    (hnext : n.next = s.processList) :
    Path (s.link a n).next s.processList (s.idle :: l ++ [a]) s.processList := by
  obtain ⟨m, x, hsplit, hxa, hnodes⟩ := h.link_nodes hfree n
  have hxmem : x ∈ s.idle :: l := hsplit ▸ mem_append_right _ mem_cons_self
  have hpath := h.path
  rw [hsplit] at hpath ⊢
  refine hpath.insert ?_ ?_ fun y hy => ?_
  · obtain ⟨nx, hnx⟩ := Option.isSome_iff_exists.1 ((h.isSome x).2 hxmem)
    rw [next, node, hnodes, if_pos rfl, hnx]
    rfl
  · rw [next, h.link_node_self hfree, hnext]
  · have hym : y ∈ s.idle :: l := hsplit ▸ mem_append_left _ hy
    have hyx : y ≠ x := by
      have hnd := h.nodup
      rw [hsplit] at hnd
      rintro rfl
      exact (nodup_append.1 hnd).2.2 y hy y mem_cons_self rfl
    have hya : y ≠ a := fun heq => h.not_mem_of_free hfree (heq ▸ hym)
    rw [next, node, hnodes, if_neg hyx, if_neg hya, next, node]

/-- **A new process** at the end of the ring, with a number of its own. -/
theorem Ringed.link (h : Ringed s l) (hfree : s.nodes a = none) (ha : a ≠ 0)
    (hroom : s.processCount < maxProcesses) (hnext : n.next = s.processList)
    (hpid : s.taken < 4294967296 → n.pid = s.taken ∧ ∀ b ∈ s.idle :: l, (s.node b).pid < s.taken) :
    Ringed (s.link a n) (l ++ [a]) ∧ (s.link a n).node a = n := by
  have hnew := h.not_mem_of_free hfree
  have hna := h.link_node_self hfree n
  have hmem : ∀ b, b ∈ s.idle :: (l ++ [a]) ↔ b ∈ s.idle :: l ∨ b = a := by
    intro b
    rw [← cons_append, mem_append, mem_singleton]
  have hold : ∀ b ∈ s.idle :: l, ∃ y, (s.link a n).node b = { s.node b with next := y } :=
    fun b hb => node_link_of_ne s fun heq => hnew (heq ▸ hb)
  have hpids : ∀ b ∈ s.idle :: l, ((s.link a n).node b).pid = (s.node b).pid := by
    intro b hb
    obtain ⟨y, hy⟩ := hold b hb
    rw [hy]
  refine ⟨?_, hna⟩
  constructor
  case path => exact h.link_path hfree hnext
  case nodup =>
    have hnd : (s.idle :: l ++ [a]).Nodup :=
      nodup_append.2 ⟨h.nodup, nodup_singleton a, fun b hb c hc heq =>
        hnew (by rw [← mem_singleton.1 hc, ← heq]; exact hb)⟩
    exact hnd
  case isSome =>
    intro b
    rw [show (s.link a n).idle = s.idle from rfl, hmem, ← h.isSome]
    exact h.link_isSome hfree n b
  case nonzero =>
    intro h0
    rcases (hmem 0).1 h0 with h0 | h0
    · exact h.nonzero h0
    · exact ha h0.symm
  case count =>
    have hcount := h.count
    show s.processCount + 1 = (l ++ [a]).length
    rw [length_append, length_singleton]
    omega
  case bound => exact hroom
  case current => exact (hmem _).2 (.inl h.current)
  case idleLive =>
    obtain ⟨y, hy⟩ := hold s.idle mem_cons_self
    show ((s.link a n).node s.idle).state ≠ .terminated
    rw [hy]
    exact h.idleLive
  case nextPid => exact h.nextPid
  case numbers =>
    intro hlt b hb
    rcases (hmem b).1 hb with hb | rfl
    · rw [hpids b hb]
      exact h.numbers hlt b hb
    · rw [hna]
      exact Nat.le_of_eq (hpid hlt).1
  case distinct =>
    intro hlt b hb c hc heq
    have hlt' : s.taken < 4294967296 := hlt
    obtain ⟨hnpid, hless⟩ := hpid hlt'
    rcases (hmem b).1 hb with hb | hb
    · rcases (hmem c).1 hc with hc | hc
      · rw [hpids b hb, hpids c hc] at heq
        exact h.distinct hlt' b hb c hc heq
      · rw [hpids b hb, hc, hna, hnpid] at heq
        exact absurd heq (Nat.ne_of_lt (hless b hb))
    rcases (hmem c).1 hc with hc | hc
    · rw [hb, hna, hnpid, hpids c hc] at heq
      exact absurd heq.symm (Nat.ne_of_lt (hless c hc))
    · rw [hb, hc]

/-- A number is taken for a new process. -/
theorem Ringed.take (h : Ringed s l) :
    Ringed s.takePid l ∧ (s.takePid.taken < 4294967296 → s.nextPid = s.takePid.taken ∧
      ∀ b ∈ s.takePid.idle :: l, (s.takePid.node b).pid < s.takePid.taken) := by
  have hpid := h.nextPid
  refine ⟨⟨h.path, h.nodup, h.isSome, h.nonzero, h.count, h.bound, h.current, h.idleLive, ?_, ?_,
    ?_⟩, ?_⟩
  · show (s.nextPid + 1) % 4294967296 = (s.taken + 1 + 1) % 4294967296
    omega
  · intro hlt b hb
    have hlt' : s.taken + 1 < 4294967296 := hlt
    exact Nat.le_succ_of_le (h.numbers (by omega) b hb)
  · intro hlt
    have hlt' : s.taken + 1 < 4294967296 := hlt
    exact h.distinct (by omega)
  · intro hlt
    have hlt' : s.taken + 1 < 4294967296 := hlt
    refine ⟨?_, fun b hb => Nat.lt_succ_of_le (h.numbers (by omega) b hb)⟩
    show s.nextPid = s.taken + 1
    omega

/-! ## Taking a node out -/

theorem nodes_kfree (s : State) (a b : Nat) :
    (s.kfree a).nodes b = if b = a then none else s.nodes b := update_apply ..

/-- What a removed node leaves behind: the others, after some were woken. -/
theorem release_eq (s : State) (a : Nat) (closes : List Slot) : s.release a closes =
      ({ s.wakeAll closes with processCount := s.processCount - 1 } : State).kfree a := by
  have hcount := (Quiet.wakeAll s closes).count
  rw [release, hcount]

/-- What a freed process leaves behind are wake-ups. -/
theorem node_release_of_ne (s : State) (closes : List Slot) (hb : b ≠ a) :
    (s.release a closes).node b = (s.wakeAll closes).node b := by
  rw [node, release, nodes_kfree, if_neg hb, node]

/-- The ring without the node behind `q`. -/
theorem Ringed.erase_mem {q : Nat} (h : Ringed s l) (hsplit : s.idle :: l = m ++ q :: a :: l₂)
    {l' : List Nat} (hl' : s.idle :: l' = m ++ q :: l₂) :
    a ∉ s.idle :: l' ∧ (∀ b, b ∈ s.idle :: l ↔ b ∈ s.idle :: l' ∨ b = a) ∧
      (s.idle :: l').Sublist (s.idle :: l) := by
  have hnd := h.nodup
  rw [hsplit] at hnd
  refine ⟨fun hmem => ?_, fun b => ?_, ?_⟩
  · rw [hl'] at hmem
    rw [append_cons, nodup_append] at hnd
    rcases mem_append.1 hmem with ham | ham
    · exact hnd.2.2 a (mem_append_left _ ham) a mem_cons_self rfl
    rcases mem_cons.1 ham with rfl | ham
    · exact hnd.2.2 a (mem_append_right _ mem_cons_self) a mem_cons_self rfl
    · exact (nodup_cons.1 hnd.2.1).1 ham
  · rw [hsplit, hl']
    simp only [mem_append, mem_cons]
    tauto
  · rw [hl', hsplit]
    exact (List.Sublist.refl m).append ((sublist_cons_self a l₂).cons_cons q)

/-- The links lead around it. -/
theorem Ringed.erase_path {q : Nat} (h : Ringed s l) (hsplit : s.idle :: l = m ++ q :: a :: l₂)
    {l' : List Nat} (hl' : s.idle :: l' = m ++ q :: l₂) (closes : List Slot) :
    Path ((s.setNext q (s.next a)).release a closes).next s.processList (s.idle :: l')
      s.processList := by
  obtain ⟨hout, hmem, -⟩ := h.erase_mem hsplit hl'
  have hqmem : q ∈ s.idle :: l' := hl' ▸ mem_append_right _ mem_cons_self
  have hnext : ∀ b, b ≠ a → ((s.setNext q (s.next a)).release a closes).next b =
      (s.setNext q (s.next a)).next b := by
    intro b hb
    rw [next, node_release_of_ne _ closes hb]
    exact (Quiet.wakeAll _ closes).next b
  have hne : ∀ y ∈ m ++ l₂, y ≠ q ∧ y ≠ a := by
    intro y hy
    have hnd := h.nodup
    rw [hsplit, nodup_middle, nodup_cons] at hnd
    have hmid : ∀ z, y ∈ m ++ z :: l₂ := fun z => (mem_append.1 hy).elim (mem_append_left _)
      fun hy => mem_append_right _ (mem_cons_of_mem _ hy)
    exact ⟨fun heq => hnd.1 (heq ▸ hmid a), fun heq => hout (heq ▸ hl' ▸ hmid q)⟩
  have hpath := h.path
  rw [hsplit] at hpath
  rw [hl']
  refine hpath.erase ?_ fun y hy => ?_
  · rw [hnext q fun heq => hout (heq ▸ hqmem)]
    exact next_setNext_self ((h.isSome q).2 ((hmem q).2 (.inl hqmem)))
  · rw [hnext y (hne y hy).2]
    exact next_setNext_of_ne (hne y hy).1

/-- The node behind `q` is taken out and freed. -/
theorem Ringed.erase {q : Nat} (h : Ringed s l)
    (hsplit : s.idle :: l = m ++ q :: a :: l₂) (hcur : s.current ≠ a) (closes : List Slot)
    {l' : List Nat} (hl' : s.idle :: l' = m ++ q :: l₂) :
    Ringed ((s.setNext q (s.next a)).release a closes) l' := by
  obtain ⟨hout, hmem, hsub⟩ := h.erase_mem hsplit hl'
  have hidle : s.idle ≠ a := fun heq => hout (heq ▸ mem_cons_self)
  -- the state between the two writes to the list
  let s₁ := s.setNext q (s.next a)
  have hrel : Relinked s s₁ := relinked_setNext s q (s.next a)
  have hq := Quiet.wakeAll s₁ closes
  have hpid : ∀ b, b ≠ a → ((s₁.release a closes).node b).pid = (s.node b).pid := by
    intro b hb
    rw [node_release_of_ne s₁ closes hb, hq.pid]
    exact hrel.field (fun _ _ => rfl) b
  have hlist : (s₁.release a closes).processList = s.processList := hq.list
  have hidleEq : (s₁.release a closes).idle = s.idle := hq.idle
  have htaken : (s₁.release a closes).taken = s.taken := hq.taken
  constructor
  case path =>
    rw [hlist, hidleEq]
    exact h.erase_path hsplit hl' closes
  case nodup =>
    rw [hidleEq]
    exact h.nodup.sublist hsub
  case isSome =>
    intro b
    rw [hidleEq, release_eq, nodes_kfree]
    split
    · next hb => exact ⟨fun hn => absurd hn (by simp), fun hn => absurd (hb ▸ hn) hout⟩
    · next hb =>
      rw [hq.isSome, hrel.isSome, h.isSome, hmem]
      exact or_iff_left hb
  case nonzero =>
    rw [hidleEq]
    exact fun h0 => h.nonzero (hsub.subset h0)
  case count =>
    have hlen := congrArg List.length hsplit
    have hlen' := congrArg List.length hl'
    have hcount := h.count
    simp only [length_cons, length_append] at hlen hlen'
    rw [release_eq]
    show s.processCount - 1 = l'.length
    omega
  case bound =>
    rw [release_eq]
    exact Nat.le_trans (Nat.sub_le _ _) h.bound
  case current =>
    have hsame : (s₁.release a closes).current = s.current := current_wakeAll s₁ closes
    rw [hsame, hidleEq]
    exact ((hmem _).1 h.current).resolve_right hcur
  case idleLive =>
    rw [hidleEq, node_release_of_ne s₁ closes hidle]
    refine hq.idleLive ?_
    rw [hrel.field (g := Node.state) (fun _ _ => rfl)]
    exact h.idleLive
  case nextPid =>
    rw [htaken, release_eq]
    exact hq.nextPid.trans h.nextPid
  case numbers =>
    intro hlt b hb
    rw [htaken] at hlt ⊢
    rw [hidleEq] at hb
    rw [hpid b fun heq => hout (heq ▸ hb)]
    exact h.numbers hlt b (hsub.subset hb)
  case distinct =>
    intro hlt b hb c hc heq
    rw [htaken] at hlt
    rw [hidleEq] at hb hc
    rw [hpid b fun heq => hout (heq ▸ hb), hpid c fun heq => hout (heq ▸ hc)] at heq
    exact h.distinct hlt b (hsub.subset hb) c (hsub.subset hc) heq

/-- `process_remove_from_list` finds the node before the one it removes. -/
theorem Ringed.unlink_eq {l₁ : List Nat} (h : Ringed s (l₁ ++ a :: l₂)) :
    ∃ m q, s.idle :: l₁ = m ++ [q] ∧ s.unlink a = s.setNext q (s.next a) := by
  obtain ⟨m, q, hsplit⟩ : ∃ m q, s.idle :: l₁ = m ++ [q] :=
    (eq_nil_or_concat' (s.idle :: l₁)).resolve_left (cons_ne_nil _ _)
  refine ⟨m, q, hsplit, ?_⟩
  have hnd := h.nodup
  rw [← cons_append] at hnd
  have hdisj := (nodup_append.1 hnd).2.2
  have hidle : s.idle ≠ a := hdisj _ mem_cons_self a mem_cons_self
  have hpath : Path s.next s.processList (m ++ [q] ++ a :: l₂) s.processList := by
    rw [← hsplit]
    exact h.path
  obtain ⟨y, hbefore, hy, -⟩ := path_append.1 hpath
  obtain rfl : y = a := hy
  have hself : s.next y ≠ y := h.next_ne_self (m := s.idle :: l₁) (cons_append ..).symm hidle.symm
  have hseek : seek s.next (fun b => s.next b = y ∨ s.next b = s.processList) maxIterations
      s.processList = q := by
    refine seek_of_path hbefore (fun b hb => ?_) (.inl (path_concat.1 hbefore).2) ?_
    · have hmem : s.next b ∈ l₁ := by
        have := hbefore.next_mem hb
        rwa [← hsplit] at this
      rintro (heq | heq)
      · exact hdisj y (heq ▸ mem_cons_of_mem _ hmem) y mem_cons_self rfl
      · rw [heq, h.list_eq] at hmem
        exact (nodup_cons.1 (nodup_append.1 hnd).1).1 hmem
    have hlen := congrArg List.length hsplit
    have hcount := h.count
    have hbound := h.bound
    simp only [length_cons, length_append, List.length_nil] at hlen hcount
    simp only [maxProcesses] at hbound
    simp only [maxIterations]
    omega
  have hlist : s.processList ≠ y := h.list_eq ▸ hidle
  rw [unlink, if_neg hself, if_neg hlist, hseek]
  exact if_pos (path_concat.1 hbefore).2

/-- **One node less.** -/
theorem Ringed.processRemoveFromList {l₁ : List Nat} (h : Ringed s (l₁ ++ a :: l₂))
    (hcur : s.current ≠ a) (closes : List Slot) :
    Ringed (s.processRemoveFromList a closes) (l₁ ++ l₂) := by
  obtain ⟨m, q, hsplit, hunlink⟩ := h.unlink_eq
  rw [State.processRemoveFromList, hunlink]
  have hcut : s.idle :: (l₁ ++ a :: l₂) = m ++ q :: a :: l₂ := by
    rw [← cons_append, hsplit, append_assoc]
    rfl
  refine h.erase hcut hcur closes ?_
  · rw [← cons_append, hsplit, append_assoc]
    rfl

/-- Nothing is terminated that was not. -/
def NoneTerminated (s s' : State) : Prop :=
  ∀ a, (s.node a).state ≠ .terminated → (s'.node a).state ≠ .terminated

theorem NoneTerminated.trans (h₁ : NoneTerminated s s₁) (h₂ : NoneTerminated s₁ s₂) :
    NoneTerminated s s₂ := fun a ha => h₂ a (h₁ a ha)

/-- A change that ends no process. -/
theorem noneTerminated_modify (s : State) (a : Nat)
    (hf : ∀ n, n.state ≠ .terminated → (f n).state ≠ .terminated) :
    NoneTerminated s (s.modify a f) := by
  intro b hb
  rcases node_modify_cases s a f b with h | ⟨-, h⟩
  · rw [h]
    exact hb
  · rw [h]
    exact hf _ hb

theorem noneTerminated_wake (s : State) (w : Slot) : NoneTerminated s (s.wake w) := by
  rw [wake]
  split
  · exact fun _ => id
  · exact noneTerminated_modify s _ fun _ _ => by simp

theorem noneTerminated_wakeAll (s : State) (ws : List Slot) : NoneTerminated s (s.wakeAll ws) := by
  induction ws generalizing s with
  | nil => exact fun _ => id
  | cons w ws ih => exact (noneTerminated_wake s w).trans (ih _)

theorem Relinked.noneTerminated (h : Relinked s s') : NoneTerminated s s' := by
  intro a ha
  rw [h.field (g := Node.state) (fun _ _ => rfl)]
  exact ha

/-- What taking a node out leaves alone. -/
theorem erase_frame (s : State) (q x a : Nat) (closes : List Slot) :
    ((s.setNext q x).release a closes).idle = s.idle ∧
      ((s.setNext q x).release a closes).current = s.current ∧
      NoneTerminated s ((s.setNext q x).release a closes) := by
  refine ⟨(Quiet.wakeAll _ _).idle, current_wakeAll _ _, fun b hb => ?_⟩
  by_cases hba : b = a
  · rw [node, release, nodes_kfree, if_pos hba]
    exact fun heq => nomatch heq
  · rw [node_release_of_ne _ closes hba]
    exact noneTerminated_wakeAll _ closes b ((relinked_setNext s q x).noneTerminated b hb)

end State

end Scheduler
