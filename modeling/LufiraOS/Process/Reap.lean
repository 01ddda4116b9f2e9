import LufiraOS.Process.Ring

/-!
# `process_reap`

The loop starts at `process_list`, which is the idle process and stays, so there is
always a node before the one it removes.  When it removes the last node it misses the
test for the end and goes around once more; by then nothing is left to remove.
-/

namespace Scheduler

open Cycle List

namespace State

variable {s t : State} {l m l₂ : List Nat} {p q n : Nat} {closes : Nat → List Slot}
  {kept rest : List Nat}

theorem not_removed (hclean : ∀ x ∈ l, (s.node x).state ≠ .terminated)
    (hp : p ∈ s.idle :: l) : ¬ ((s.node p).state = .terminated ∧ p ≠ s.idle) := by
  rintro ⟨hterm, hidle⟩
  rcases mem_cons.1 hp with heq | hp
  · exact hidle heq
  · exact hclean p hp hterm

/-- What comes behind the first node is not the idle process. -/
theorem Ringed.ne_idle (h : Ringed s l)
    (hsplit : s.idle :: l = kept ++ q :: rest) {x : Nat} (hx : x ∈ rest) : x ≠ s.idle := by
  have hnd := h.nodup
  have hmem : x ∈ l := by
    cases kept with
    | nil => exact (List.cons.inj hsplit).2 ▸ hx
    | cons y kept =>
      rw [(List.cons.inj hsplit).2]
      exact mem_append_right _ (mem_cons_of_mem _ hx)
  exact fun heq => (nodup_cons.1 hnd).1 (heq ▸ hmem)

/-- A turn of the loop that keeps the node. -/
theorem Ringed.reapLoop_keep (h : Ringed s l) (hsplit : s.idle :: l = m ++ p :: l₂)
    (hkeep : ¬ ((s.node p).state = .terminated ∧ p ≠ s.idle)) (prev : Option Nat) :
    reapLoop closes s.idle (n + 1) s p prev =
      if l₂ = [] then (s, [(p, (s.node p).state)])
      else
        ((reapLoop closes s.idle n s (l₂.headD s.idle) (some p)).1,
          (p, (s.node p).state) :: (reapLoop closes s.idle n s (l₂.headD s.idle) (some p)).2) := by
  have hself : ¬ (s.next p = p ∧ p ≠ s.idle) := fun hboth =>
    h.next_ne_self hsplit hboth.2 hboth.1
  conv_lhs => unfold reapLoop
  rw [if_neg hself, if_neg hkeep, h.next_eq hsplit]
  cases l₂ with
  | nil =>
    rw [headD_nil, if_pos rfl, if_pos rfl]
  | cons z l₂ =>
    have hz : z ≠ s.idle := h.ne_idle hsplit mem_cons_self
    rw [headD_cons, if_neg hz, if_neg (cons_ne_nil z l₂)]

/-- A turn of the loop that removes the node. -/
theorem Ringed.reapLoop_remove (h : Ringed s l) (hsplit : s.idle :: l = m ++ p :: l₂)
    (hterm : (s.node p).state = .terminated) (hidle : p ≠ s.idle) (q : Nat) :
    reapLoop closes s.idle (n + 1) s p (some q) =
      let s' := (s.setNext q (s.next p)).release p (closes p)
      ((reapLoop closes s.idle n s' (s'.next q) (some q)).1,
        (p, .terminated) :: (reapLoop closes s.idle n s' (s'.next q) (some q)).2) := by
  have hself : ¬ (s.next p = p ∧ p ≠ s.idle) := fun hboth =>
    h.next_ne_self hsplit hboth.2 hboth.1
  conv_lhs => unfold reapLoop
  rw [if_neg hself, if_pos ⟨hterm, hidle⟩]

/-- The pass over nodes that all stay. -/
theorem Ringed.reapLoop_clean (h : Ringed s l) (hclean : ∀ x ∈ l, (s.node x).state ≠ .terminated)
    (hsplit : s.idle :: l = m ++ p :: l₂) (hn : l₂.length < n) (prev : Option Nat) :
    reapLoop closes s.idle n s p prev = (s, (p :: l₂).map fun x => (x, (s.node x).state)) := by
  induction l₂ generalizing m p n prev with
  | nil =>
    obtain ⟨k, rfl⟩ := exists_pred hn
    rw [h.reapLoop_keep hsplit (not_removed hclean (by rw [hsplit]; simp)), if_pos rfl]
    rfl
  | cons z l₂ ih =>
    obtain ⟨k, rfl⟩ := exists_pred hn
    rw [h.reapLoop_keep hsplit (not_removed hclean (by rw [hsplit]; simp)),
      if_neg (cons_ne_nil z l₂)]
    have hrest := ih (m := m ++ [p]) (p := z) (n := k) (by rw [hsplit]; simp)
      (by simp at hn; omega) (some p)
    rw [headD_cons, hrest]
    rfl

/-- How the loop ends, when it has kept `kept` and has still to visit `rest`. -/
structure Reaped (s : State) (kept rest : List Nat) (r : State × List (Nat × PState))
    (l' : List Nat) : Prop where
  ring : Ringed r.1 l'
  idle : r.1.idle = s.idle
  current : r.1.current = s.current
  none : NoneTerminated s r.1
  front : ∃ rest', rest'.Sublist rest ∧ s.idle :: l' = kept ++ rest'
  clean : ∀ x ∈ l', (r.1.node x).state ≠ .terminated
  stays : ∀ x st, (x, st) ∈ r.2 → st ≠ .terminated → x ∈ s.idle :: l'
  gone : ∀ x, (x, .terminated) ∈ r.2 → x ∉ l'
  visited : ∀ x ∈ rest, x ∈ r.2.map Prod.fst
  short : r.2.length ≤ rest.length + (kept.length + rest.length)

/-- A node that was kept is in front of what the rest of the loop keeps. -/
theorem Reaped.keep {l' : List Nat} {r : State × List (Nat × PState)}
    (h : Reaped s (kept ++ [p]) rest r l') (hp : (s.node p).state ≠ .terminated ∨ p = s.idle) :
    Reaped s kept (p :: rest) (r.1, (p, (s.node p).state) :: r.2) l' := by
  obtain ⟨rest', hsub, hl'⟩ := h.front
  have hl'' : s.idle :: l' = kept ++ p :: rest' := by rw [hl', append_assoc]; rfl
  have hmem : p ∈ s.idle :: l' := hl'' ▸ mem_append_right _ mem_cons_self
  refine ⟨h.ring, h.idle, h.current, h.none, ⟨p :: rest', hsub.cons_cons p, hl''⟩, h.clean, ?_, ?_,
    ?_, ?_⟩
  · intro x st hx hst
    rcases mem_cons.1 hx with heq | hx
    · rw [(Prod.mk.inj heq).1]
      exact hmem
    · exact h.stays x st hx hst
  · intro x hx
    rcases mem_cons.1 hx with heq | hx
    · obtain ⟨rfl, hst⟩ := Prod.mk.inj heq
      have hidle := hp.resolve_left fun hne => hne hst.symm
      have hnd := h.ring.nodup
      rw [h.idle, ← hidle] at hnd
      exact (nodup_cons.1 hnd).1
    · exact h.gone x hx
  · intro x hx
    rcases mem_cons.1 hx with rfl | hx
    · exact mem_cons_self
    · exact mem_cons_of_mem _ (h.visited x hx)
  · have hshort := h.short
    simp only [length_append, length_cons, List.length_nil] at hshort ⊢
    omega

/-- Nothing is left to remove. -/
theorem Ringed.reaped_clean (h : Ringed s l) (hclean : ∀ x ∈ l, (s.node x).state ≠ .terminated)
    (kept rest : List Nat) (hsplit : s.idle :: l = kept ++ rest) :
    Reaped s kept rest (s, rest.map fun x => (x, (s.node x).state)) l := by
  refine ⟨h, rfl, rfl, fun _ => id, ⟨rest, .refl _, hsplit⟩, hclean, ?_, ?_, ?_, ?_⟩
  · intro x st hx _
    obtain ⟨y, hy, heq⟩ := mem_map.1 hx
    rw [← (Prod.mk.inj heq).1, hsplit]
    exact mem_append_right _ hy
  · intro x hx
    obtain ⟨y, hy, heq⟩ := mem_map.1 hx
    obtain ⟨rfl, hst⟩ := Prod.mk.inj heq
    exact fun hmem => hclean y hmem hst
  · intro x hx
    rw [map_map]
    exact mem_map.2 ⟨x, hx, rfl⟩
  · rw [length_map]
    exact Nat.le_add_right _ _

/-- A node that was removed is behind everything that was kept. -/
theorem Reaped.remove {s' : State} {l' : List Nat} {r : State × List (Nat × PState)}
    (h : Reaped s' kept rest r l') (hidle : s'.idle = s.idle) (hcur : s'.current = s.current)
    (hnone : NoneTerminated s s') (hp : p ∉ kept ++ rest) :
    Reaped s kept (p :: rest) (r.1, (p, .terminated) :: r.2) l' := by
  obtain ⟨rest', hsub, hl'⟩ := h.front
  rw [hidle] at hl'
  refine ⟨h.ring, h.idle.trans hidle, h.current.trans hcur, hnone.trans h.none,
    ⟨rest', hsub.cons p, hl'⟩, h.clean, ?_, ?_, ?_, ?_⟩
  · intro x st hx hst
    rcases mem_cons.1 hx with heq | hx
    · exact absurd (Prod.mk.inj heq).2 hst
    · exact hidle ▸ h.stays x st hx hst
  · intro x hx
    rcases mem_cons.1 hx with heq | hx
    · obtain ⟨rfl, -⟩ := Prod.mk.inj heq
      intro hmem
      have hmem' : x ∈ kept ++ rest' := hl' ▸ mem_cons_of_mem _ hmem
      exact hp ((List.Sublist.append_left hsub kept).subset hmem')
    · exact h.gone x hx
  · intro x hx
    rcases mem_cons.1 hx with rfl | hx
    · exact mem_cons_self
    · exact mem_cons_of_mem _ (h.visited x hx)
  · have hshort := h.short
    simp only [length_cons] at hshort ⊢
    omega

/-- The list without the node behind `q`. -/
theorem exists_cons_eq {i : Nat} (hsplit : i :: l = kept ++ q :: p :: rest) :
    ∃ l', i :: l' = kept ++ q :: rest ∧ l'.length + 1 = l.length := by
  cases kept with
  | nil =>
    obtain ⟨rfl, rfl⟩ := List.cons.inj hsplit
    exact ⟨rest, rfl, rfl⟩
  | cons y kept =>
    obtain ⟨rfl, rfl⟩ := List.cons.inj hsplit
    exact ⟨kept ++ q :: rest, rfl, by simp [Nat.add_assoc]⟩

/-- **The loop.**  `kept` and `q` have been passed and hold nothing terminated; `rest`
is still to visit, and behind it the loop may go around once more. -/
theorem Ringed.reapLoop (h : Ringed s l) (hlive : s.Alive) (closes : Nat → List Slot)
    (hsplit : s.idle :: l = kept ++ q :: rest)
    (hclean : ∀ x ∈ (kept ++ [q]).tail, (s.node x).state ≠ .terminated) (hrest : rest ≠ [])
    (hn : rest.length + l.length + 2 ≤ n) :
    ∃ l', Reaped s (kept ++ [q]) rest
      (State.reapLoop closes s.idle n s (rest.headD s.idle) (some q)) l' := by
  induction rest generalizing s l kept q n with
  | nil => exact absurd rfl hrest
  | cons p l₂ ih =>
    obtain ⟨k, rfl⟩ : ∃ k, n = k + 1 := ⟨n - 1, by omega⟩
    have hidle : p ≠ s.idle := h.ne_idle hsplit mem_cons_self
    have hsplit' : s.idle :: l = (kept ++ [q]) ++ p :: l₂ := by
      rw [hsplit, append_assoc]
      rfl
    rw [headD_cons]
    by_cases hterm : (s.node p).state = .terminated
    · -- the node goes; what is behind it is visited with the same `prev`
      rw [h.reapLoop_remove hsplit' hterm hidle]
      dsimp only
      have hcur : s.current ≠ p := by
        rcases hlive with hcur | hcur
        · exact hcur ▸ hidle.symm
        · exact fun heq => hcur (heq ▸ hterm)
      obtain ⟨l', hl', hlen⟩ := exists_cons_eq hsplit
      have h' := h.erase hsplit hcur (closes p) hl'
      generalize hs' : (s.setNext q (s.next p)).release p (closes p) = s' at h' ⊢
      obtain ⟨hidle', hcur', hnone⟩ : s'.idle = s.idle ∧ s'.current = s.current ∧
          NoneTerminated s s' := hs' ▸ erase_frame s q (s.next p) p (closes p)
      have hsplit'' : s'.idle :: l' = kept ++ q :: l₂ := hidle' ▸ hl'
      have hout : p ∉ (kept ++ [q]) ++ l₂ := by
        have hnd := h.nodup
        rw [hsplit', nodup_middle] at hnd
        exact (nodup_cons.1 hnd).1
      have hclean' : ∀ x ∈ (kept ++ [q]).tail, (s'.node x).state ≠ .terminated :=
        fun x hx => hnone x (hclean x hx)
      rw [h'.next_eq hsplit'', ← hidle']
      simp only [length_cons] at hn
      by_cases hl₂ : l₂ = []
      · -- the last node went: once around, and nothing more to do
        subst hl₂
        have hall : ∀ x ∈ l', (s'.node x).state ≠ .terminated := by
          intro x hx
          refine hclean' x ?_
          rw [← hsplit'']
          exact hx
        rw [headD_nil, h'.reapLoop_clean (m := []) hall rfl (by omega)]
        have hround := h'.reaped_clean hall [] _ rfl
        refine ⟨l', Reaped.remove ⟨hround.ring, rfl, rfl, hround.none,
          ⟨[], .refl _, by rw [hsplit'', append_nil]⟩, hround.clean, hround.stays,
          hround.gone, fun x hx => absurd hx not_mem_nil, ?_⟩ hidle' hcur' hnone hout⟩
        rw [← hsplit'', length_map]
        exact Nat.le_add_left _ _
      have hlive' : s'.Alive := by
        rcases hlive with hcur | hcur
        · exact .inl (by rw [hcur', hidle', hcur])
        · exact .inr (hcur' ▸ hnone _ hcur)
      obtain ⟨l'', hl''⟩ := ih h' hlive' hsplit'' hclean' hl₂ (n := k) (by omega)
      exact ⟨l'', hl''.remove hidle' hcur' hnone hout⟩
    -- the node stays and becomes `prev`
    rw [h.reapLoop_keep hsplit' fun hboth => hterm hboth.1]
    have hclean' : ∀ x ∈ (kept ++ [q] ++ [p]).tail, (s.node x).state ≠ .terminated := by
      intro x hx
      rw [tail_append_of_ne_nil (by simp)] at hx
      rcases mem_append.1 hx with hx | hx
      · exact hclean x hx
      · rw [mem_singleton.1 hx]
        exact hterm
    by_cases hl₂ : l₂ = []
    · subst hl₂
      rw [if_pos rfl]
      refine ⟨l, Reaped.keep (r := (s, [])) ?_ (.inl hterm)⟩
      refine h.reaped_clean (fun x hx => hclean' x ?_) _ [] (by rw [hsplit']; simp)
      rw [← hsplit']
      exact hx
    rw [if_neg hl₂]
    simp only [length_cons] at hn
    obtain ⟨l', hl'⟩ := ih h hlive hsplit' hclean' hl₂ (n := k) (by omega)
    exact ⟨l', hl'.keep (.inl hterm)⟩

/-- **`process_reap`.**  The idle process and every node that is not terminated when
it is visited stay on the ring, and nothing terminated is left on it. -/
theorem Ringed.processReap (h : Ringed s l) (hlive : s.Alive) (closes : Nat → List Slot) :
    ∃ l', Reaped s [] (s.idle :: l)
      (State.reapLoop closes s.processList maxIterations s s.processList none) l' := by
  have hkeep : ¬ ((s.node s.idle).state = .terminated ∧ s.idle ≠ s.idle) := fun hboth => hboth.2 rfl
  have hbound := h.bound
  have hcount := h.count
  simp only [maxProcesses] at hbound
  rw [h.list_eq, show maxIterations = 9999 + 1 from rfl,
    h.reapLoop_keep (show s.idle :: l = [] ++ s.idle :: l from rfl) hkeep]
  by_cases hl : l = []
  · subst hl
    rw [if_pos rfl]
    exact ⟨[], h.reaped_clean (by simp) _ _ rfl⟩
  rw [if_neg hl]
  obtain ⟨l', hl'⟩ := h.reapLoop hlive closes (show s.idle :: l = [] ++ s.idle :: l from rfl)
    (by simp) hl (n := 9999) (by omega)
  exact ⟨l', hl'.keep (.inr rfl)⟩

end State

end Scheduler
