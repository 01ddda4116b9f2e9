import LufiraOS.Lib.Run
import LufiraOS.Console.Draw

/-!
# Double buffering of the console

All drawing goes to a back buffer; the timer tick copies the dirty rectangle of it to the
hardware framebuffer.  A drawing function stores its pixels first and then adds the
rectangle it touched to the dirty one, in several stores, with the flag last.  The tick may
run between any two of these stores; it reads the rectangle and clears the flag.

The rectangle is never made smaller while the flag is set, and a function that found the
flag clear owns the rectangle until it sets the flag itself.  So at every moment a pixel in
which the buffers differ lies in the dirty rectangle or in the area of the function that
is still running.
-/

namespace Console

variable {g : Screen} {s : State} {x y : Nat}

/-! ### The machine -/

/-- The stores with which `mark_dirty_rect_raw` ends, in their order. -/
inductive Field where
  | x0
  | y0
  | x1
  | y1
  | flag
  deriving DecidableEq

/-- Where the drawing code is: between two functions, among the stores of pixels, or among the
stores of `mark_dirty_rect_raw` after it has found the flag clear or set. -/
inductive Pc where
  | idle
  | draw (ws : List Write) (r : Rect)
  | setting (f : Field) (c : Rect)
  | merging (f : Field) (c : Rect)
  deriving DecidableEq

/-- `front` is the hardware framebuffer. -/
structure State where
  front : Nat → Pixel
  back : Nat → Pixel
  enabled : Bool
  dirty : Bool
  rect : Rect
  pc : Pc

/-- The buffer behind `framebuffer`. -/
def State.framebuffer (s : State) : Nat → Pixel := if s.enabled then s.back else s.front

def State.write (s : State) (dst : Nat) (v : Pixel) : State :=
  if s.enabled then { s with back := Function.update s.back dst v }
  else { s with front := Function.update s.front dst v }

def State.exec (s : State) : Write → State
  | .store dst v => s.write dst v
  | .copy dst src => s.write dst (s.framebuffer src)

/-- The next store of the drawing code.  The test of the flag is one step with the clipping; the
tick does not change the rectangle, so each side is compared and stored in one step. -/
def State.step (g : Screen) (s : State) : State :=
  match s.pc with
  | .idle => s
  | .draw (w :: ws) r => { s.exec w with pc := .draw ws r }
  | .draw [] r =>
    let c := r.clip g
    if c.Nonempty then
      { s with pc := if s.dirty then .merging .x0 c else .setting .x0 c }
    else { s with pc := .idle }
  | .setting .x0 c => { s with rect := { s.rect with x0 := c.x0 }, pc := .setting .y0 c }
  | .setting .y0 c => { s with rect := { s.rect with y0 := c.y0 }, pc := .setting .x1 c }
  | .setting .x1 c => { s with rect := { s.rect with x1 := c.x1 }, pc := .setting .y1 c }
  | .setting .y1 c => { s with rect := { s.rect with y1 := c.y1 }, pc := .setting .flag c }
  | .setting .flag _ => { s with dirty := true, pc := .idle }
  | .merging .x0 c =>
    { s with rect := { s.rect with x0 := min c.x0 s.rect.x0 }, pc := .merging .y0 c }
  | .merging .y0 c =>
    { s with rect := { s.rect with y0 := min c.y0 s.rect.y0 }, pc := .merging .x1 c }
  | .merging .x1 c =>
    { s with rect := { s.rect with x1 := max c.x1 s.rect.x1 }, pc := .merging .y1 c }
  | .merging .y1 c =>
    { s with rect := { s.rect with y1 := max c.y1 s.rect.y1 }, pc := .merging .flag c }
  | .merging .flag _ => { s with dirty := true, pc := .idle }

/-- The `memcpy` of row `py` in `gfx_present`; the count is a `size_t`. -/
def presentRow (g : Screen) (s : State) (front : Nat → Pixel) (py : Int) : Nat → Pixel :=
  let start := g.row (s.rect.x0 % 2 ^ 32).toNat (py % 2 ^ 32).toNat
  let count := ((s.rect.x1 - s.rect.x0) % 2 ^ 62).toNat
  fun i => if start ≤ i ∧ i < start + count then s.back i else front i

/-- `gfx_present`. -/
def State.present (g : Screen) (s : State) : State :=
  { s with
    front := (intRange s.rect.y0 s.rect.y1).foldl (presentRow g s) s.front
    dirty := false }

/-- `console_tick_present`. -/
def State.tick (g : Screen) (s : State) : State :=
  if s.enabled ∧ s.dirty then s.present g else s

/-- `console_enable_double_buffering`, with what the heap had in the new buffer. -/
def State.enable (g : Screen) (s : State) (heap : Nat → Pixel) : State :=
  if s.enabled then s
  else { s with
    back := fun i => if i < g.pixelsPerScanLine * g.height then s.front i else heap i
    enabled := true }

def State.start (g : Screen) (s : State) (op : Op) : State :=
  match op.body g with
  | none => s
  | some (ws, r) => { s with pc := .draw ws r }

/-- A drawing function is called, makes its next store, or the tick comes.  A function that is
called before the last is over is not a run of the console. -/
inductive Event where
  | call (op : Op)
  | step
  | tick
  | enable (heap : Nat → Pixel)

def State.event (g : Screen) (s : State) : Event → State
  | .call op => match s.pc with
    | .idle => s.start g op
    | _ => s
  | .step => s.step g
  | .tick => s.tick g
  | .enable heap => match s.pc with
    | .idle => s.enable g heap
    | _ => s

/-- The console before its first drawing. -/
def State.boot (front back : Nat → Pixel) : State :=
  ⟨front, back, false, false, ⟨0, 0, 0, 0⟩, .idle⟩

/-! ### The invariant -/

/-- The buffers differ in this pixel. -/
def Differ (g : Screen) (s : State) (x y : Nat) : Prop :=
  s.enabled = true ∧ s.back (g.cell x y) ≠ s.front (g.cell x y)

/-- The area that the function in progress has still to mark. -/
def Pc.Owes (g : Screen) : Pc → Nat → Nat → Prop
  | .idle, _, _ => False
  | .draw _ r, x, y => (r.clip g).Mem x y
  | .setting _ c, x, y => c.Mem x y
  | .merging _ c, x, y => c.Mem x y

/-- The sides stored before `f`. -/
def SetUpTo (r c : Rect) : Field → Prop
  | .x0 => True
  | .y0 => r.x0 = c.x0
  | .x1 => r.x0 = c.x0 ∧ r.y0 = c.y0
  | .y1 => r.x0 = c.x0 ∧ r.y0 = c.y0 ∧ r.x1 = c.x1
  | .flag => r = c

/-- The sides widened before `f`. -/
def CoversUpTo (r c : Rect) : Field → Prop
  | .x0 => True
  | .y0 => r.x0 ≤ c.x0
  | .x1 => r.x0 ≤ c.x0 ∧ r.y0 ≤ c.y0
  | .y1 => r.x0 ≤ c.x0 ∧ r.y0 ≤ c.y0 ∧ c.x1 ≤ r.x1
  | .flag => r.x0 ≤ c.x0 ∧ r.y0 ≤ c.y0 ∧ c.x1 ≤ r.x1 ∧ c.y1 ≤ r.y1

def State.Phase (g : Screen) (s : State) : Prop :=
  match s.pc with
  | .idle => s.dirty = true → s.rect.Nonempty
  | .draw ws r => (s.dirty = true → s.rect.Nonempty) ∧ Within g ws (r.clip g)
  | .setting f c => s.dirty = false ∧ c.Nonempty ∧ c.InScreen g ∧ SetUpTo s.rect c f
  | .merging f c => s.rect.Nonempty ∧ c.InScreen g ∧ CoversUpTo s.rect c f

structure State.Inv (g : Screen) (s : State) : Prop where
  inScreen : s.rect.InScreen g
  phase : s.Phase g
  cover : ∀ x y, g.Visible x y → Differ g s x y →
    s.dirty = true ∧ s.rect.Mem x y ∨ s.pc.Owes g x y

theorem inv_boot (g : Screen) (front back : Nat → Pixel) : (State.boot front back).Inv g where
  inScreen := by
    refine ⟨?_, ?_, ?_, ?_⟩ <;> simp [State.boot]
  phase := fun h => by cases h
  cover _ _ _ h := by cases h.1

/-! ### The tick -/

/-- A copied row leaves each cell as it was or equal to the back buffer. -/
theorem presentRow_cases (g : Screen) (s : State) (front : Nat → Pixel) (py : Int) (i : Nat) :
    presentRow g s front py i = s.back i ∨ presentRow g s front py i = front i := by
  unfold presentRow
  split
  · exact .inl rfl
  · exact .inr rfl

theorem foldl_presentRow_cases (g : Screen) (s : State) (rows : List Int) (front : Nat → Pixel)
    (i : Nat) :
    rows.foldl (presentRow g s) front i = s.back i ∨
      rows.foldl (presentRow g s) front i = front i := by
  refine List.foldlRecOn (motive := fun f : Nat → Pixel => f i = s.back i ∨ f i = front i) rows _
    (.inr rfl) fun f hf py _ => ?_
  rcases presentRow_cases g s f py i with h | h
  · exact .inl h
  · rwa [h]

/-- The row of a pixel of the rectangle is copied with the pixel in it. -/
theorem presentRow_mem (hin : s.rect.InScreen g)
    (hvis : g.Visible x y) (hmem : s.rect.Mem x y) (front : Nat → Pixel) :
    presentRow g s front y (g.cell x y) = s.back (g.cell x y) := by
  obtain ⟨hw, hh⟩ := g.small hvis
  obtain ⟨hx0, hy0, hx1, hy1⟩ := hin
  obtain ⟨h1, h2, h3, h4⟩ := hmem
  have hcell := (Screen.row_eq hvis).symm
  obtain ⟨hx, hy⟩ := hvis
  have hy' : ((y : Int) % 2 ^ 32).toNat = y := by omega
  refine if_pos ?_
  rw [hcell, hy']
  unfold Screen.row
  omega

theorem foldl_presentRow_mem (hin : s.rect.InScreen g)
    (hvis : g.Visible x y) (hmem : s.rect.Mem x y) (rows : List Int) (hrow : (y : Int) ∈ rows)
    (front : Nat → Pixel) :
    rows.foldl (presentRow g s) front (g.cell x y) = s.back (g.cell x y) := by
  induction rows generalizing front with
  | nil => cases hrow
  | cons py rows ih =>
    rcases List.mem_cons.1 hrow with rfl | hrow
    · rcases foldl_presentRow_cases g s rows (presentRow g s front y) (g.cell x y) with h | h
      · exact h
      · exact h.trans (presentRow_mem hin hvis hmem front)
    · exact ih hrow _

theorem not_differ_present (hs : s.Inv g)
    (hvis : g.Visible x y) (hmem : s.rect.Mem x y) : ¬ Differ g (s.present g) x y := by
  intro hdiffer
  apply hdiffer.2
  exact (foldl_presentRow_mem hs.inScreen hvis hmem _ (mem_intRange.2 hmem.2.2) s.front).symm

theorem differ_of_differ_present (h : Differ g (s.present g) x y) : Differ g s x y := by
  obtain ⟨henabled, hne⟩ := h
  refine ⟨henabled, fun heq => hne ?_⟩
  rcases foldl_presentRow_cases g s (intRange s.rect.y0 s.rect.y1) s.front (g.cell x y) with h | h
  · exact h.symm
  · exact heq.trans h.symm

theorem phase_clean {front : Nat → Pixel} (h : s.Phase g) :
    State.Phase g { s with front := front, dirty := false } := by
  unfold State.Phase at h ⊢
  cases hpc : s.pc with
  | idle =>
    intro hdirty
    cases hdirty
  | draw ws r =>
    rw [hpc] at h
    refine ⟨fun hdirty => ?_, h.2⟩
    cases hdirty
  | setting f c =>
    rw [hpc] at h
    exact ⟨rfl, h.2⟩
  | merging f c =>
    rw [hpc] at h
    exact h

theorem inv_tick (hs : s.Inv g) : (s.tick g).Inv g := by
  unfold State.tick
  split
  · refine ⟨hs.inScreen, phase_clean hs.phase, fun x y hvis hdiffer => ?_⟩
    rcases hs.cover x y hvis (differ_of_differ_present hdiffer) with ⟨-, hmem⟩ | howes
    · exact absurd hdiffer (not_differ_present hs hvis hmem)
    · exact .inr howes
  · exact hs

/-! ### The drawing code -/

theorem exec_rect (s : State) (w : Write) : (s.exec w).rect = s.rect := by
  cases w <;> simp only [State.exec, State.write] <;> split <;> rfl

theorem exec_dirty (s : State) (w : Write) : (s.exec w).dirty = s.dirty := by
  cases w <;> simp only [State.exec, State.write] <;> split <;> rfl

theorem differ_write {dst : Nat} {v : Pixel}
    (h : Differ g (s.write dst v) x y) : Differ g s x y ∨ g.cell x y = dst := by
  by_cases hcell : g.cell x y = dst
  · exact .inr hcell
  left
  unfold State.write at h
  by_cases henabled : s.enabled = true
  · rw [if_pos henabled] at h
    refine ⟨henabled, fun heq => h.2 ?_⟩
    exact (Function.update_of_ne hcell v s.back).trans heq
  · rw [if_neg henabled] at h
    exact absurd h.1 henabled

/-- A store of a pixel makes the buffers differ in that pixel at most. -/
theorem differ_exec {w : Write}
    (h : Differ g (s.exec w) x y) : Differ g s x y ∨ g.cell x y = w.dst := by
  cases w with
  | store dst v => exact differ_write h
  | copy dst src => exact differ_write h

section

variable (hs : s.Inv g)

include hs

theorem inv_exec {w : Write} {ws : List Write} {r : Rect}
    (hpc : s.pc = .draw (w :: ws) r) : State.Inv g { s.exec w with pc := .draw ws r } := by
  obtain ⟨hin, hphase, hcover⟩ := hs
  unfold State.Phase at hphase
  rw [hpc] at hphase hcover
  obtain ⟨hnonempty, hwithin⟩ := hphase
  refine ⟨?_, ⟨?_, ?_⟩, fun x y hvis hdiffer => ?_⟩
  · show ((s.exec w).rect).InScreen g
    rw [exec_rect]
    exact hin
  · show (s.exec w).dirty = true → (s.exec w).rect.Nonempty
    rw [exec_rect, exec_dirty]
    exact hnonempty
  · exact fun w' hw' => hwithin w' (List.mem_cons_of_mem _ hw')
  rw [exec_rect, exec_dirty]
  rcases differ_exec (s := s) (w := w) hdiffer with hold | hdst
  · exact hcover x y hvis hold
  obtain ⟨x', y', hvis', hmem, hdst'⟩ := hwithin w List.mem_cons_self
  obtain ⟨rfl, rfl⟩ := Screen.cell_injective hvis hvis' (hdst.trans hdst')
  exact .inr hmem

/-- The test of the flag: the mark is dropped only when there is nothing to mark. -/
theorem inv_mark {r : Rect} (hpc : s.pc = .draw [] r) : (s.step g).Inv g := by
  obtain ⟨hin, hphase, hcover⟩ := hs
  unfold State.Phase at hphase
  rw [hpc] at hphase hcover
  unfold State.step
  rw [hpc]
  dsimp only
  by_cases hc : (r.clip g).Nonempty
  · rw [if_pos hc]
    by_cases hdirty : s.dirty = true
    · rw [if_pos hdirty]
      exact ⟨hin, ⟨hphase.1 hdirty, r.clip_inScreen g, trivial⟩, hcover⟩
    · rw [if_neg hdirty]
      exact ⟨hin, ⟨Bool.eq_false_iff.2 hdirty, hc, r.clip_inScreen g, trivial⟩, hcover⟩
  rw [if_neg hc]
  refine ⟨hin, hphase.1, fun x y hvis hdiffer => ?_⟩
  rcases hcover x y hvis hdiffer with hold | ⟨h1, h2, h3, h4⟩
  · exact .inl hold
  · exact absurd ⟨by omega, by omega⟩ hc

/-- With the flag clear the stores of the sides are the function's own. -/
theorem inv_setting {f : Field} {c : Rect} (hpc : s.pc = .setting f c) : (s.step g).Inv g := by
  obtain ⟨⟨h1, h2, h3, h4⟩, hphase, hcover⟩ := hs
  unfold State.Phase at hphase
  rw [hpc] at hphase hcover
  obtain ⟨hdirty, hnonempty, hc, hset⟩ := hphase
  have howes : ∀ x y {p : Prop}, g.Visible x y → Differ g s x y → p ∨ c.Mem x y := by
    intro x y p hvis hdiffer
    rcases hcover x y hvis hdiffer with ⟨htrue, -⟩ | howes
    · rw [hdirty] at htrue
      cases htrue
    · exact .inr howes
  unfold State.step
  rw [hpc]
  cases f with
  | x0 => exact ⟨⟨hc.1, h2, h3, h4⟩, ⟨hdirty, hnonempty, hc, rfl⟩, fun x y => howes x y⟩
  | y0 => exact ⟨⟨h1, hc.2.1, h3, h4⟩, ⟨hdirty, hnonempty, hc, hset, rfl⟩, fun x y => howes x y⟩
  | x1 => exact ⟨⟨h1, h2, hc.2.2.1, h4⟩, ⟨hdirty, hnonempty, hc, hset.1, hset.2, rfl⟩,
      fun x y => howes x y⟩
  | y1 =>
    obtain ⟨hx0, hy0, hx1⟩ := hset
    refine ⟨⟨h1, h2, h3, hc.2.2.2⟩, ⟨hdirty, hnonempty, hc, ?_⟩, fun x y => howes x y⟩
    show Rect.mk s.rect.x0 s.rect.y0 s.rect.x1 c.y1 = c
    rw [hx0, hy0, hx1]
  | flag =>
    have hrect : s.rect = c := hset
    refine ⟨⟨h1, h2, h3, h4⟩, fun _ => ?_, fun x y hv hd => .inl ⟨rfl, ?_⟩⟩
    · show s.rect.Nonempty
      rw [hrect]
      exact hnonempty
    rw [hrect]
    exact (howes x y hv hd).resolve_left id

/-- With the flag found set the rectangle only grows, whether or not the tick clears the flag. -/
theorem inv_merging {f : Field} {c : Rect} (hpc : s.pc = .merging f c) : (s.step g).Inv g := by
  obtain ⟨⟨h1, h2, h3, h4⟩, hphase, hcover⟩ := hs
  unfold State.Phase at hphase
  rw [hpc] at hphase hcover
  obtain ⟨⟨hx, hy⟩, hc, hcovers⟩ := hphase
  have hgrow : ∀ (r : Rect) (f : Field), r.x0 ≤ s.rect.x0 ∧ r.y0 ≤ s.rect.y0 ∧ s.rect.x1 ≤ r.x1 ∧
      s.rect.y1 ≤ r.y1 → r.InScreen g → CoversUpTo r c f →
      State.Inv g { s with rect := r, pc := .merging f c } := by
    rintro r f ⟨g1, g2, g3, g4⟩ hr hf
    have hr' : r.Nonempty := ⟨by omega, by omega⟩
    refine ⟨hr, ⟨hr', hc, hf⟩, fun x y hv hd => ?_⟩
    rcases hcover x y hv hd with ⟨hdirty, m1, m2, m3, m4⟩ | howes
    · have hmem : r.Mem x y := ⟨by omega, by omega, by omega, by omega⟩
      exact .inl ⟨hdirty, hmem⟩
    · exact .inr howes
  unfold State.step
  rw [hpc]
  cases f with
  | x0 =>
    exact hgrow { s.rect with x0 := min c.x0 s.rect.x0 } .y0
      ⟨Int.min_le_right _ _, Int.le_refl _, Int.le_refl _, Int.le_refl _⟩
      ⟨Int.le_min.2 ⟨hc.1, h1⟩, h2, h3, h4⟩ (Int.min_le_left _ _)
  | y0 =>
    exact hgrow { s.rect with y0 := min c.y0 s.rect.y0 } .x1
      ⟨Int.le_refl _, Int.min_le_right _ _, Int.le_refl _, Int.le_refl _⟩
      ⟨h1, Int.le_min.2 ⟨hc.2.1, h2⟩, h3, h4⟩ ⟨hcovers, Int.min_le_left _ _⟩
  | x1 =>
    exact hgrow { s.rect with x1 := max c.x1 s.rect.x1 } .y1
      ⟨Int.le_refl _, Int.le_refl _, Int.le_max_right _ _, Int.le_refl _⟩
      ⟨h1, h2, Int.max_le.2 ⟨hc.2.2.1, h3⟩, h4⟩ ⟨hcovers.1, hcovers.2, Int.le_max_left _ _⟩
  | y1 =>
    exact hgrow { s.rect with y1 := max c.y1 s.rect.y1 } .flag
      ⟨Int.le_refl _, Int.le_refl _, Int.le_refl _, Int.le_max_right _ _⟩
      ⟨h1, h2, h3, Int.max_le.2 ⟨hc.2.2.2, h4⟩⟩
      ⟨hcovers.1, hcovers.2.1, hcovers.2.2, Int.le_max_left _ _⟩
  | flag =>
    refine ⟨⟨h1, h2, h3, h4⟩, fun _ => ⟨hx, hy⟩, fun x y hv hd => .inl ⟨rfl, ?_⟩⟩
    obtain ⟨g1, g2, g3, g4⟩ := hcovers
    rcases hcover x y hv hd with ⟨-, hmem⟩ | ⟨m1, m2, m3, m4⟩
    · exact hmem
    · exact ⟨Int.le_trans g1 m1, Int.lt_of_lt_of_le m2 g3, Int.le_trans g2 m3,
        Int.lt_of_lt_of_le m4 g4⟩

theorem inv_step : (s.step g).Inv g := by
  cases hpc : s.pc with
  | idle =>
    have hstay : s.step g = s := by simp only [State.step, hpc]
    rw [hstay]
    exact hs
  | draw ws r =>
    cases ws with
    | nil => exact inv_mark hs hpc
    | cons w ws =>
      have hexec : s.step g = { s.exec w with pc := .draw ws r } := by
        simp only [State.step, hpc]
      rw [hexec]
      exact inv_exec hs hpc
  | setting f c => exact inv_setting hs hpc
  | merging f c => exact inv_merging hs hpc

theorem inv_start (hpc : s.pc = .idle) (op : Op) : (s.start g op).Inv g := by
  obtain ⟨hin, hphase, hcover⟩ := hs
  unfold State.Phase at hphase
  rw [hpc] at hphase hcover
  unfold State.start
  cases hbody : op.body g with
  | none =>
    refine ⟨hin, ?_, ?_⟩
    · unfold State.Phase
      rw [hpc]
      exact hphase
    · rw [hpc]
      exact hcover
  | some body =>
    obtain ⟨ws, r⟩ := body
    refine ⟨hin, ⟨hphase, body_within hbody⟩, fun x y hvis hdiffer => ?_⟩
    rcases hcover x y hvis hdiffer with hold | howes
    · exact .inl hold
    · cases howes

/-- The new back buffer is the framebuffer. -/
theorem inv_enable (heap : Nat → Pixel) : (s.enable g heap).Inv g := by
  unfold State.enable
  split
  · exact hs
  refine ⟨hs.inScreen, hs.phase, fun x y hvis hdiffer => absurd ?_ hdiffer.2⟩
  have hrow := Screen.row_end_le hvis
  have hwidth := g.width_le
  have hcell : g.cell x y < g.pixelsPerScanLine * g.height := by
    rw [Screen.cell_eq hvis]
    have := hvis.1
    omega
  exact if_pos hcell

theorem inv_event (e : Event) : (s.event g e).Inv g := by
  cases e with
  | call op =>
    unfold State.event
    cases hpc : s.pc with
    | idle => exact inv_start hs hpc op
    | draw _ _ | setting _ _ | merging _ _ => exact hs
  | step => exact inv_step hs
  | tick => exact inv_tick hs
  | enable heap =>
    unfold State.event
    cases hpc : s.pc with
    | idle => exact inv_enable hs heap
    | draw _ _ | setting _ _ | merging _ _ => exact hs

end

/-! ### Every interleaving -/

theorem inv_run (g : Screen) (front back : Nat → Pixel) (events : List Event) :
    (Run.run (State.event g) (State.boot front back) events).Inv g :=
  Run.invariant (I := State.Inv g) (fun _ e hs => inv_event hs e) (inv_boot g front back) events

/-- **No update is lost.**  However the ticks fall between the stores, once double buffering is on
and no drawing function is running, every visible pixel in which the buffers differ lies in the
dirty rectangle with the flag set, and one tick makes the visible area of both equal. -/
theorem differ_in_dirty_rect (g : Screen) (front back : Nat → Pixel) (events : List Event) :
    let s := Run.run (State.event g) (State.boot front back) events
    s.enabled = true → s.pc = .idle →
      (∀ x y, g.Visible x y → s.back (g.cell x y) ≠ s.front (g.cell x y) →
        s.dirty = true ∧ s.rect.Mem x y) ∧
      ∀ x y, g.Visible x y → (s.tick g).back (g.cell x y) = (s.tick g).front (g.cell x y) := by
  intro s henabled hidle
  have hs : s.Inv g := inv_run g front back events
  have hcover : ∀ x y, g.Visible x y → s.back (g.cell x y) ≠ s.front (g.cell x y) →
      s.dirty = true ∧ s.rect.Mem x y := by
    intro x y hvis hne
    rcases hs.cover x y hvis ⟨henabled, hne⟩ with hdirty | howes
    · exact hdirty
    · rw [hidle] at howes
      cases howes
  refine ⟨hcover, fun x y hvis => ?_⟩
  by_contra hne
  have hpresent : s.enabled = true ∧ s.dirty = true → s.tick g = s.present g := by
    intro h
    exact if_pos h
  by_cases hdirty : s.dirty = true
  · rw [hpresent ⟨henabled, hdirty⟩] at hne
    have hdiffer : Differ g (s.present g) x y := ⟨henabled, hne⟩
    have hmem := (hcover x y hvis (differ_of_differ_present hdiffer).2).2
    exact not_differ_present hs hvis hmem hdiffer
  have hstay : s.tick g = s := if_neg fun h => hdirty h.2
  rw [hstay] at hne
  exact hdirty (hcover x y hvis hne).1

/-- A screen of two by two pixels. -/
def smallScreen : Screen where
  width := 2
  height := 2
  pixelsPerScanLine := 4
  width_le := by decide
  fits := by decide

/-- A pixel is drawn with a tick between its store and its mark. -/
def splitDrawing : List Event :=
  [.enable (fun _ => 0), .call (.putPixel 1 1 7), .step, .tick, .step, .step, .step, .step, .step,
    .step]

def splitState : State :=
  Run.run (State.event smallScreen) (State.boot (fun _ => 0) (fun _ => 0)) splitDrawing

theorem differ_in_dirty_rect_split :
    splitState.back (smallScreen.cell 1 1) ≠ splitState.front (smallScreen.cell 1 1) ∧
      ∀ x y, smallScreen.Visible x y → (splitState.tick smallScreen).back (smallScreen.cell x y) =
        (splitState.tick smallScreen).front (smallScreen.cell x y) := by
  have henabled : splitState.enabled = true := by decide
  have hidle : splitState.pc = .idle := by decide
  have h := differ_in_dirty_rect smallScreen (fun _ => 0) (fun _ => 0) splitDrawing henabled hidle
  exact ⟨by decide, h.2⟩

end Console
