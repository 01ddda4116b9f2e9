import LufiraOS.Process.Ring

/-!
# Whom the scheduler chooses

`schedule` goes along the ring from the process behind the current one.  It stops at the first
process that is ready and not the idle one, when it is back at the current one, or after 100 tries.
A ring of at most 33 processes is gone around before the tries are used up.
-/

namespace Scheduler

namespace State

open Cycle List

variable {s : State} {l : List Nat} {a x : Nat}

/-- The search may stop at the process. -/
def Eligible (s : State) (a : Nat) : Prop := (s.node a).state = .ready ∧ a ≠ s.idle

instance (s : State) (a : Nat) : Decidable (s.Eligible a) := inferInstanceAs (Decidable (_ ∧ _))

/-- Behind the current process come the nodes `l` of the ring, and then the current one again. -/
structure Behind (s : State) (l : List Nat) : Prop where
  path : Path s.next (s.next s.current) l s.current
  nodup : (s.current :: l).Nodup
  size : l.length < 33

/-- The process that round robin would choose. -/
def choice (s : State) (l : List Nat) : Nat :=
  match l.find? (s.Eligible ·) with
  | some a => a
  | none =>
    if (s.node s.current).state = .running ∨ (s.node s.current).state = .ready then s.current
    else s.idle

/-- The search ends at the first process that may be chosen, or at the current one. -/
theorem pick_of_path {n : Nat} (h : Path s.next a (x :: l) s.current) (hcur : s.current ∉ x :: l)
    (hn : l.length < n) :
    (s.pick (n + 1) a).1 = ((x :: l).find? (s.Eligible ·)).getD s.current ∧
      0 < (s.pick (n + 1) a).2 := by
  induction l generalizing a x n with
  | nil =>
    obtain ⟨rfl, hend⟩ := h
    have hend' : s.next a = s.current := hend
    by_cases ha : s.Eligible a <;> grind [pick, Eligible]
  | cons y l ih =>
    obtain ⟨rfl, hrest⟩ := h
    obtain ⟨k, rfl⟩ := exists_pred hn
    have hy : s.next a = y := hrest.1
    have hfound := ih (n := k) hrest (by grind) (by simp at hn; omega)
    by_cases ha : s.Eligible a <;> grind [pick, Eligible]

theorem Behind.schedule_eq (h : Behind s l) :
    s.schedule = if s.choice l = s.current then s else s.switchToProcess (s.choice l) := by
  cases l with
  | nil =>
    have hself : s.next s.current = s.current := h.path
    grind [schedule, pick, choice]
  | cons x l =>
    have hcur : s.current ∉ x :: l := (nodup_cons.1 h.nodup).1
    have hsize := h.size
    have hpick := pick_of_path h.path hcur (n := 99) (by simp at hsize; omega)
    cases hfind : (x :: l).find? (s.Eligible ·) with
    | none => grind [schedule, choice]
    | some a =>
      have ha : s.Eligible a := by simpa using find?_some hfind
      have hne : a ≠ s.current := fun heq => hcur (heq ▸ mem_of_find?_eq_some hfind)
      grind [schedule, choice, Eligible]

/-- Seen from another process of the ring. -/
theorem Behind.rotate {t : State} {l₁ l₂ : List Nat} (h : Behind s (l₁ ++ a :: l₂))
    (hnext : t.next = s.next) (hcur : t.current = a) : Behind t (l₂ ++ s.current :: l₁) := by
  obtain ⟨hpath, hnodup, hsize⟩ := h
  obtain ⟨y, hfirst, rfl, hrest⟩ := path_append.1 hpath
  refine ⟨?_, ?_, by simp at hsize ⊢; omega⟩
  · rw [hnext, hcur]
    exact path_append.2 ⟨s.current, hrest, rfl, hfirst⟩
  · rw [hcur]
    exact (perm_append_comm : Perm (s.current :: l₁ ++ y :: l₂) _).nodup_iff.1 hnodup

/-- A process that stays ready is passed over by those in front of it only, and by each of them
once. -/
theorem Behind.passed_le {t : Nat → State} {n : Nat} (h : Behind (t 0) l) (hx : x ∈ l)
    (hturn : ∀ i < n, (t i).Eligible x ∧ (t i).schedule.current ≠ x ∧
      (t (i + 1)).next = (t i).next ∧ (t (i + 1)).current = (t i).schedule.current) :
    n ≤ l.idxOf x := by
  induction n generalizing t l with
  | zero => exact Nat.zero_le _
  | succ n ih =>
    obtain ⟨hready, hnot, hnext, hcur⟩ := hturn 0 n.succ_pos
    cases hfind : l.find? ((t 0).Eligible ·) with
    | none => exact absurd hready (by simpa using find?_eq_none.1 hfind x hx)
    | some a =>
      obtain ⟨-, l₁, l₂, rfl, hfront⟩ := find?_eq_some_iff_append.1 hfind
      have hchoice : (t 0).schedule.current = a := by
        have hne : a ≠ (t 0).current := by have := h.nodup; grind
        rw [h.schedule_eq, choice, hfind, if_neg hne]
        rfl
      have hax : a ≠ x := hchoice ▸ hnot
      have hx₁ : x ∉ l₁ := fun hmem => by simpa [hready] using hfront x hmem
      have hx₂ : x ∈ l₂ := by grind
      have hle := ih (t := fun i => t (i + 1)) (h.rotate hnext (hcur.trans hchoice))
        (mem_append_left _ hx₂) fun i hi => hturn (i + 1) (by omega)
      rw [idxOf_append_of_mem hx₂] at hle
      rw [idxOf_append_of_notMem hx₁, idxOf_cons_ne _ hax]
      omega

/-- **Round robin.**  `schedule` switches to the first process behind the current one that is ready
and not idle; without one it keeps a current process that can go on, and else takes the idle one.
So a process that stays ready is passed over less often than there are processes. -/
theorem schedule_roundRobin (h : Behind s l) :
    s.schedule = (if s.choice l = s.current then s else s.switchToProcess (s.choice l)) ∧
      ∀ (t : Nat → State) (n x : Nat), t 0 = s → x ∈ l →
        (∀ i < n, (t i).Eligible x ∧ (t i).schedule.current ≠ x ∧ (t (i + 1)).next = (t i).next ∧
          (t (i + 1)).current = (t i).schedule.current) → n ≤ l.idxOf x := by
  refine ⟨h.schedule_eq, fun t n x ht hx hturn => ?_⟩
  subst ht
  exact h.passed_le hx hturn

/-- Switching writes states only. -/
theorem next_setState (a : Nat) (st : PState) : (s.setState a st).next = s.next := by
  funext b
  by_cases hb : b = a
  · subst hb
    cases hnode : s.nodes b <;> simp [next, node, setState, modify, hnode]
  · simp [next, node, setState, modify, hb]

theorem next_switchToProcess (a : Nat) : (s.switchToProcess a).next = s.next := by
  unfold switchToProcess
  dsimp only
  split
  · exact (next_setState ..).trans (next_setState ..)
  · exact next_setState ..

/-- The idle process runs; of the three behind it the first is blocked, the others are ready. -/
def fourProcesses : State :=
  ((((processInit 1).processCreate (some 2) true).2.processCreate (some 3) true).2.processCreate
    (some 4) true).2.setState 2 .blocked

/-- The blocked process is skipped and the first ready one taken; the other is passed over once. -/
theorem schedule_roundRobin_four :
    fourProcesses.schedule = fourProcesses.switchToProcess 3 ∧ 1 ≤ [2, 3, 4].idxOf 4 := by
  have h : Behind fourProcesses [2, 3, 4] :=
    ⟨⟨by decide +kernel, by decide +kernel, by decide +kernel,
      (by decide +kernel : fourProcesses.next 4 = fourProcesses.current)⟩, by decide +kernel,
      by decide⟩
  obtain ⟨hchosen, hpassed⟩ := schedule_roundRobin h
  have hchoice : fourProcesses.choice [2, 3, 4] = 3 := by decide +kernel
  rw [hchoice, if_neg (by decide +kernel)] at hchosen
  refine ⟨hchosen, hpassed (fun i => i.casesOn fourProcesses fun _ => fourProcesses.schedule) 1 4
    rfl (by decide) fun i hi => ?_⟩
  obtain rfl : i = 0 := by omega
  have hnext : fourProcesses.schedule.next = fourProcesses.next := by
    rw [hchosen, next_switchToProcess]
  exact ⟨by decide +kernel, by decide +kernel, hnext, rfl⟩

end State

end Scheduler
