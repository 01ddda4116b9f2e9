import LufiraOS.Console.DoubleBuffer

/-!
# The clipped blit

`gfx_blit` run to its end: which cells of the framebuffer it changes, to what, and which
rectangle it marks.
-/

namespace Console

open List

variable {g : Screen} {s : State} {ws : List Write} {r : Rect} {x y i : Nat} {v : Pixel}

/-! ### A drawing function run to its end -/

/-- The smallest rectangle around both. -/
def Rect.hull (r c : Rect) : Rect := ⟨min c.x0 r.x0, min c.y0 r.y0, max c.x1 r.x1, max c.y1 r.y1⟩

/-- The function, with no tick before it is over: its stores, the test of the flag and the five
stores of the mark. -/
def State.draw (g : Screen) (s : State) (op : Op) : State :=
  match op.body g with
  | none => s
  | some (ws, _) => (State.step g)^[ws.length + 6] (s.start g op)

theorem framebuffer_exec_store (s : State) (i : Nat) (v : Pixel) :
    (s.exec (.store i v)).framebuffer = Function.update s.framebuffer i v := by
  unfold State.exec State.write State.framebuffer
  cases s.enabled <;> rfl

/-- The stores.  A cell to which they store only `v` has `v` in the end, if they reach it. -/
theorem iterate_draw (hpc : s.pc = .draw ws r) (hst : ∀ w ∈ ws, ∃ i v, w = .store i v) :
    let t := (State.step g)^[ws.length] s
    t.pc = .draw [] r ∧ t.dirty = s.dirty ∧ t.rect = s.rect ∧
      ∀ i v, (∀ w ∈ ws, w.dst = i → w = .store i v) →
        t.framebuffer i = if ∃ w ∈ ws, w.dst = i then v else s.framebuffer i := by
  induction ws generalizing s with
  | nil => simp [hpc]
  | cons w ws ih =>
    have hstep : s.step g = { s.exec w with pc := .draw ws r } := by rw [State.step, hpc]
    obtain ⟨hpc', hdirty, hrect, hcell⟩ := ih (s := { s.exec w with pc := .draw ws r }) rfl
      fun w' hw => hst w' (mem_cons_of_mem w hw)
    rw [length_cons, Function.iterate_succ_apply, hstep]
    refine ⟨hpc', hdirty.trans (exec_dirty s w), hrect.trans (exec_rect s w), fun i v hi => ?_⟩
    rw [hcell i v fun w' hw => hi w' (mem_cons_of_mem w hw)]
    obtain ⟨k, u, rfl⟩ := hst w mem_cons_self
    have hfb := congrFun (framebuffer_exec_store s k u) i
    by_cases hk : k = i
    · cases hi _ mem_cons_self hk
      rw [if_pos (⟨_, mem_cons_self, rfl⟩ : ∃ w ∈ .store i v :: ws, w.dst = i)]
      split
      · rfl
      · exact hfb.trans (Function.update_self ..)
    · rw [Function.update_of_ne (Ne.symm hk)] at hfb
      simp only [mem_cons, exists_eq_or_imp, Write.dst, hk, false_or]
      exact if_congr Iff.rfl rfl hfb

/-- The mark. -/
theorem iterate_mark (hpc : s.pc = .draw [] r) (hne : (r.clip g).Nonempty) :
    let t := (State.step g)^[6] s
    t.pc = .idle ∧ t.dirty = true ∧ t.framebuffer = s.framebuffer ∧
      t.rect = if s.dirty then s.rect.hull (r.clip g) else r.clip g := by
  obtain ⟨front, back, enabled, dirty, rect, pc⟩ := s
  subst hpc
  cases dirty <;> simp [Function.iterate_succ_apply, State.step, hne, Rect.hull, State.framebuffer]

/-! ### What `gfx_blit` draws -/

/-- The pixel is visible, and the source covers it. -/
def Shows (g : Screen) (dstX dstY : Int) (srcW srcH x y : Nat) : Prop :=
  g.Visible x y ∧ dstX ≤ x ∧ x < dstX + srcW ∧ dstY ≤ y ∧ y < dstY + srcH

theorem i32_side {d : Int} {n : Nat} (h : |d + n| < 2 ^ 31) (hn : n < 2 ^ 31) :
    i32 (d + i32 n) = d + n := by
  obtain ⟨hlo, hhi⟩ := abs_lt.1 h
  rw [i32_of_lt (n := n) (by omega) (by omega), i32, Int.bmod_def]
  split <;> omega

section

variable {dstX dstY : Int} {src : Nat → Pixel} {srcW srcH srcStride : Nat}

variable (hstride : srcW ≤ srcStride) (hx : |dstX + srcW| < 2 ^ 31) (hy : |dstY + srcH| < 2 ^ 31)
  (hsize : srcH * srcStride < 2 ^ 31)

include hstride hx hy hsize

/-- The far sides are computed without overflow, or the source has no pixels. -/
theorem blit_sides :
    i32 (dstX + i32 srcW) = dstX + srcW ∧ i32 (dstY + i32 srcH) = dstY + srcH ∨
      srcW = 0 ∧ i32 (dstX + i32 srcW) = dstX + srcW ∨
      srcH = 0 ∧ i32 (dstY + i32 srcH) = dstY + srcH := by
  by_cases hw : srcW = 0
  · exact .inr (.inl ⟨hw, i32_side hx (by omega)⟩)
  by_cases hh : srcH = 0
  · exact .inr (.inr ⟨hh, i32_side hy (by omega)⟩)
  have hcols : srcStride ≤ srcH * srcStride := Nat.le_mul_of_pos_left _ (by omega)
  have hrows : srcH ≤ srcH * srcStride := Nat.le_mul_of_pos_right _ (by omega)
  exact .inl ⟨i32_side hx (by omega), i32_side hy (by omega)⟩

variable (g src)

theorem blit_body :
    ((Op.blit dstX dstY src srcW srcH srcStride).body g = none ∧
      ∀ x y, ¬ Shows g dstX dstY srcW srcH x y) ∨
    ∃ ws r, (Op.blit dstX dstY src srcW srcH srcStride).body g = some (ws, r) ∧
      (r.clip g).Nonempty ∧ (∀ x y, (r.clip g).Mem x y ↔ Shows g dstX dstY srcW srcH x y) ∧
      ∀ w, w ∈ ws ↔ ∃ x y, Shows g dstX dstY srcW srcH x y ∧
        w = .store (g.cell x y) (src ((y - dstY).toNat * srcStride + (x - dstX).toNat)) := by
  have hsides := blit_sides hstride hx hy hsize
  have hrows : ∀ n ≤ srcH, n * srcStride % 2 ^ 32 = n * srcStride := fun n hn =>
    Nat.mod_eq_of_lt (by have := Nat.mul_le_mul_right srcStride hn; omega)
  clear hx hy hsize
  simp only [Op.body]
  generalize i32 (dstX + i32 srcW) = x1 at hsides ⊢
  generalize i32 (dstY + i32 srcH) = y1 at hsides ⊢
  split
  · next hout =>
    refine .inl ⟨rfl, fun x y hshow => ?_⟩
    simp only [g.i32_sides hshow.1] at hout
    unfold Shows Screen.Visible at hshow
    omega
  next hin =>
  have hw := i32_natCast_le g.width
  have hh := i32_natCast_le g.height
  obtain ⟨hw, hh⟩ := g.i32_sides (x := (max dstX 0).toNat) (y := (max dstY 0).toNat)
    (by unfold Screen.Visible; omega)
  have hclip := clip_markDirtyRect (g := g) (Int.le_max_right dstX 0) (Int.le_max_right dstY 0)
    (lt_of_not_ge fun h => hin (.inl h)) (lt_of_not_ge fun h => hin (.inr h))
    (Int.min_le_right _ _) (Int.min_le_right _ _)
  -- the pixels of the loops, with the product of the row that does not overflow
  have hshows : ∀ x y : Nat, Shows g dstX dstY srcW srcH x y ↔
      (max dstX 0 ≤ x ∧ (x : Int) < min x1 (i32 g.width)) ∧
        max dstY 0 ≤ y ∧ (y : Int) < min y1 (i32 g.height) := by
    intro x y
    unfold Shows Screen.Visible
    omega
  have hstore : ∀ x y : Nat, Shows g dstX dstY srcW srcH x y →
      Write.store (g.row (x : Int).toNat (y : Int).toNat)
        (src ((((y : Int) - max dstY 0).toNat + (max dstY 0 - dstY).toNat) * srcStride % 2 ^ 32 +
          (max dstX 0 - dstX).toNat + ((x : Int) - max dstX 0).toNat)) =
      .store (g.cell x y) (src ((y - dstY).toNat * srcStride + (x - dstX).toNat)) := by
    intro x y hshow
    obtain ⟨hvis, hcov⟩ := hshow
    have hrow : ((y : Int) - max dstY 0).toNat + (max dstY 0 - dstY).toNat = (y - dstY).toNat := by
      omega
    rw [Int.toNat_natCast, Int.toNat_natCast, Screen.row_eq hvis, hrow, hrows _ (by omega),
      Nat.add_assoc]
    have hcol : (max dstX 0 - dstX).toNat + ((x : Int) - max dstX 0).toNat = (x - dstX).toNat := by
      omega
    rw [hcol]
  refine .inr ⟨_, _, rfl, ?_, fun x y => ?_, fun w => ?_⟩
  · simp only [hclip, Rect.Nonempty]
    omega
  · simp only [hclip, Rect.Mem, hshows, and_assoc]
  simp only [mem_flatMap, mem_map, mem_intRange]
  constructor
  · rintro ⟨py, hpy, px, hpx, rfl⟩
    obtain ⟨x, rfl⟩ := Int.eq_ofNat_of_zero_le (show 0 ≤ px by omega)
    obtain ⟨y, rfl⟩ := Int.eq_ofNat_of_zero_le (show 0 ≤ py by omega)
    have hshow := (hshows x y).2 ⟨hpx, hpy⟩
    exact ⟨x, y, hshow, hstore x y hshow⟩
  · rintro ⟨x, y, hshow, rfl⟩
    obtain ⟨hpx, hpy⟩ := (hshows x y).1 hshow
    exact ⟨y, hpy, x, hpx, hstore x y hshow⟩

end

/-- **The clipped blit.**  The visible pixels that the source covers get its pixels, no other cell
changes, and the rectangle that is marked has exactly these pixels. -/
theorem blit_draws (g : Screen) (s : State) (src : Nat → Pixel) {dstX dstY : Int}
    {srcW srcH srcStride : Nat} (hstride : srcW ≤ srcStride) (hx : |dstX + srcW| < 2 ^ 31)
    (hy : |dstY + srcH| < 2 ^ 31) (hsize : srcH * srcStride < 2 ^ 31) :
    let t := s.draw g (.blit dstX dstY src srcW srcH srcStride)
    (∀ x y, Shows g dstX dstY srcW srcH x y →
      t.framebuffer (g.cell x y) = src ((y - dstY).toNat * srcStride + (x - dstX).toNat)) ∧
    (∀ i, (∀ x y, Shows g dstX dstY srcW srcH x y → g.cell x y ≠ i) →
      t.framebuffer i = s.framebuffer i) ∧
    ∃ c : Rect, (∀ x y, c.Mem x y ↔ Shows g dstX dstY srcW srcH x y) ∧
      if c.Nonempty then t.dirty = true ∧ t.rect = if s.dirty then s.rect.hull c else c
      else t = s := by
  rcases blit_body g src hstride hx hy hsize with
    ⟨hnone, hout⟩ | ⟨ws, r, hsome, hne, hmem, hws⟩
  · simp only [State.draw, hnone]
    refine ⟨fun x y h => absurd h (hout x y), fun _ _ => trivial, ⟨0, 0, 0, 0⟩,
      fun x y => iff_of_false ?_ (hout x y), by simp [Rect.Nonempty]⟩
    simp only [Rect.Mem]
    omega
  have hst : ∀ w ∈ ws, ∃ i v, w = .store i v := fun w hw => by
    obtain ⟨x, y, -, rfl⟩ := (hws w).1 hw
    exact ⟨_, _, rfl⟩
  obtain ⟨hpc, hdirty, hrect, hcell⟩ :=
    iterate_draw (g := g) (s := { s with pc := .draw ws r }) rfl hst
  obtain ⟨-, hflag, hfb, hmark⟩ := iterate_mark hpc hne
  simp only [State.draw, State.start, hsome]
  rw [Nat.add_comm, Function.iterate_add_apply, hfb, hflag, hmark, hdirty, hrect]
  refine ⟨fun x y hshow => ?_, fun i hi => ?_, r.clip g, hmem, by simp [hne]⟩
  · rw [hcell _ _ fun w hw hdst => ?_, if_pos ⟨_, (hws _).2 ⟨x, y, hshow, rfl⟩, rfl⟩]
    obtain ⟨x', y', hshow', rfl⟩ := (hws w).1 hw
    obtain ⟨rfl, rfl⟩ := Screen.cell_injective hshow'.1 hshow.1 hdst
    rfl
  · have hno : ∀ w ∈ ws, w.dst ≠ i := fun w hw => by
      obtain ⟨x, y, hshow, rfl⟩ := (hws w).1 hw
      exact hi x y hshow
    rw [hcell i 0 fun w hw hdst => absurd hdst (hno w hw), if_neg (by simpa using hno)]
    rfl

/-- A source of two by one pixels at the left edge: its second pixel is drawn. -/
theorem blit_draws_small :
    let t := (State.boot (fun _ => 0) fun _ => 0).draw smallScreen
      (.blit (-1) 1 (fun i => UInt32.ofNat (i + 5)) 2 1 2)
    t.framebuffer (smallScreen.cell 0 1) = 6 ∧ t.rect = ⟨0, 1, 1, 2⟩ := by
  refine ⟨?_, by decide⟩
  exact (blit_draws smallScreen _ (fun i => UInt32.ofNat (i + 5)) (by decide) (by decide)
    (by decide) (by decide)).1 0 1 (by unfold Shows Screen.Visible; decide)

end Console
