import Mathlib

/-!
# The drawing functions of the console

A drawing function stores its pixels in the framebuffer and then marks a rectangle as dirty.
For each of them: the stores it makes, in their order, and the rectangle.  The rectangle
covers every pixel that is stored.
-/

namespace Console

open List

variable {g : Screen}

abbrev Pixel := UInt32

/-- The conversion to `int32_t`. -/
def i32 (n : Int) : Int := Int.bmod n (2 ^ 32)

theorem i32_natCast_le (n : Nat) : i32 n ≤ n := by
  unfold i32
  rw [Int.bmod_def]
  split <;> omega

theorem i32_of_lt {n : Int} (h0 : 0 ≤ n) (hn : n < 2 ^ 31) : i32 n = n := by
  unfold i32
  rw [Int.bmod_def]
  split <;> omega

/-- The screen.  A row of the framebuffer has room for the visible pixels, and the conversions to
`int32_t` change no index of a pixel. -/
structure Screen where
  width : Nat
  height : Nat
  pixelsPerScanLine : Nat
  width_le : width ≤ pixelsPerScanLine
  fits : pixelsPerScanLine * height < 2 ^ 31

namespace Screen

variable (g : Screen)

/-- `framebuffer[y * pixels_per_scan_line + x]`. -/
def cell (x y : Nat) : Nat := (y * g.pixelsPerScanLine + x) % 2 ^ 32

/-- `framebuffer + (uint32_t)y * pixels_per_scan_line + x`. -/
def row (x y : Nat) : Nat := (y * g.pixelsPerScanLine) % 2 ^ 32 + x

def Visible (x y : Nat) : Prop := x < g.width ∧ y < g.height

variable {g} {x y x' y' : Nat}

section

variable (h : g.Visible x y)

include h

theorem row_end_le :
    y * g.pixelsPerScanLine + g.pixelsPerScanLine ≤ g.pixelsPerScanLine * g.height := by
  have hmul : (y + 1) * g.pixelsPerScanLine ≤ g.height * g.pixelsPerScanLine :=
    Nat.mul_le_mul_right _ h.2
  rw [Nat.succ_mul, Nat.mul_comm g.height] at hmul
  exact hmul

theorem cell_eq : g.cell x y = y * g.pixelsPerScanLine + x := by
  have hrow := row_end_le h
  have hfits := g.fits
  have hwidth := g.width_le
  obtain ⟨hx, -⟩ := h
  exact Nat.mod_eq_of_lt (by omega)

theorem row_eq : g.row x y = g.cell x y := by
  have hrow := row_end_le h
  have hfits := g.fits
  rw [cell_eq h]
  unfold row
  rw [Nat.mod_eq_of_lt (by omega)]

/-- Two visible pixels share no cell. -/
theorem cell_injective (h' : g.Visible x' y') (heq : g.cell x y = g.cell x' y') :
    x = x' ∧ y = y' := by
  rw [cell_eq h, cell_eq h'] at heq
  have hx : x < g.pixelsPerScanLine := Nat.lt_of_lt_of_le h.1 g.width_le
  have hx' : x' < g.pixelsPerScanLine := Nat.lt_of_lt_of_le h'.1 g.width_le
  have hmod := congrArg (· % g.pixelsPerScanLine) heq
  simp only [Nat.mul_add_mod_self_right, Nat.mod_eq_of_lt hx, Nat.mod_eq_of_lt hx'] at hmod
  subst hmod
  have hmul : y * g.pixelsPerScanLine = y' * g.pixelsPerScanLine := by omega
  exact ⟨rfl, Nat.eq_of_mul_eq_mul_right (by omega) hmul⟩

/-- Where there is a visible pixel, both sides of the screen are small. -/
theorem small : g.width < 2 ^ 31 ∧ g.height < 2 ^ 31 := by
  have hfits := g.fits
  have hwidth := g.width_le
  have hx : 0 < g.pixelsPerScanLine := by have := h.1; omega
  have hy : 0 < g.height := by have := h.2; omega
  have hw : g.pixelsPerScanLine * 1 ≤ g.pixelsPerScanLine * g.height := Nat.mul_le_mul_left _ hy
  have hh : 1 * g.height ≤ g.pixelsPerScanLine * g.height := Nat.mul_le_mul_right _ hx
  omega

theorem i32_sides : i32 g.width = g.width ∧ i32 g.height = g.height := by
  obtain ⟨hw, hh⟩ := small h
  exact ⟨i32_of_lt (by omega) (by omega), i32_of_lt (by omega) (by omega)⟩

end

end Screen

/-- A rectangle, open at the far sides. -/
structure Rect where
  x0 : Int
  y0 : Int
  x1 : Int
  y1 : Int
  deriving DecidableEq

namespace Rect

def Mem (r : Rect) (x y : Nat) : Prop := r.x0 ≤ x ∧ (x : Int) < r.x1 ∧ r.y0 ≤ y ∧ (y : Int) < r.y1

def Nonempty (r : Rect) : Prop := r.x0 < r.x1 ∧ r.y0 < r.y1

instance (r : Rect) : Decidable r.Nonempty := by
  unfold Nonempty
  infer_instance

/-- The sides lie on the screen. -/
def InScreen (g : Screen) (r : Rect) : Prop :=
  0 ≤ r.x0 ∧ 0 ≤ r.y0 ∧ r.x1 ≤ g.width ∧ r.y1 ≤ g.height

/-- The first lines of `mark_dirty_rect_raw`. -/
def clip (g : Screen) (r : Rect) : Rect where
  x0 := if r.x0 < 0 then 0 else r.x0
  y0 := if r.y0 < 0 then 0 else r.y0
  x1 := if r.x1 > i32 g.width then i32 g.width else r.x1
  y1 := if r.y1 > i32 g.height then i32 g.height else r.y1

theorem clip_inScreen (g : Screen) (r : Rect) : (r.clip g).InScreen g := by
  have hw := i32_natCast_le g.width
  have hh := i32_natCast_le g.height
  unfold InScreen clip
  dsimp only
  refine ⟨?_, ?_, ?_, ?_⟩ <;> split <;> omega

/-- A visible pixel of the rectangle is in the clipped one. -/
theorem mem_clip {g : Screen} {r : Rect} {x y : Nat} (h : g.Visible x y) (hr : r.Mem x y) :
    (r.clip g).Mem x y := by
  obtain ⟨hw, hh⟩ := g.i32_sides h
  obtain ⟨hx, hy⟩ := h
  obtain ⟨h1, h2, h3, h4⟩ := hr
  unfold Mem clip
  dsimp only
  rw [hw, hh]
  refine ⟨?_, ?_, ?_, ?_⟩ <;> split <;> omega

end Rect

/-! ### The drawing functions -/

/-- A store to the framebuffer. -/
inductive Write where
  | store (dst : Nat) (v : Pixel)
  | copy (dst src : Nat)
  deriving DecidableEq

def Write.dst : Write → Nat
  | .store dst _ => dst
  | .copy dst _ => dst

/-- The drawing functions.  All others of the console are sequences of these. -/
inductive Op where
  | putPixel (x y : Nat) (color : Pixel)
  | fillRect (x y : Int) (w h : Nat) (color : Pixel)
  | blit (dstX dstY : Int) (src : Nat → Pixel) (srcW srcH srcStride : Nat)
  | shiftUp (lines : Nat) (bg : Pixel)
  | shiftDown (lines : Nat) (bg : Pixel)
  | clearEntireScreen (bg : Pixel)
  | markAll

/-- The numbers from `a` up to `b`. -/
def intRange (a b : Int) : List Int := (List.range (b - a).toNat).map fun k : Nat => a + (k : Int)

theorem mem_intRange {a b k : Int} : k ∈ intRange a b ↔ a ≤ k ∧ k < b := by
  unfold intRange
  rw [mem_map]
  constructor
  · rintro ⟨n, hn, rfl⟩
    have := mem_range.1 hn
    omega
  · rintro ⟨ha, hb⟩
    exact ⟨(k - a).toNat, mem_range.2 (by omega), by omega⟩

/-- `console_mark_dirty_rect`. -/
def markDirtyRect (x y w h : Int) : Rect := ⟨x, y, i32 (x + w), i32 (y + h)⟩

/-- `console_mark_dirty`. -/
def markDirty (g : Screen) : Rect := ⟨0, 0, i32 g.width, i32 g.height⟩

/-- `CONSOLE_LINE_HEIGHT`. -/
def lineHeight : Nat := 12

/-- `screen_height_chars`, as `initialize_console` sets it. -/
def Screen.heightChars (g : Screen) : Nat :=
  if g.height / lineHeight < 10 then 10 else g.height / lineHeight

/-- All pixels of the rows from `y0` up to `y1`. -/
def rows (g : Screen) (y0 y1 : Nat) : List (Nat × Nat) :=
  (List.range' y0 (y1 - y0)).flatMap fun y => (List.range g.width).map fun x => (x, y)

/-- The two loops that a fill of rows is. -/
def fillRows (g : Screen) (y0 y1 : Nat) (v : Pixel) : List Write :=
  (rows g y0 y1).map fun p => .store (g.cell p.1 p.2) v

/-- The stores of a drawing function and the rectangle it marks after them; `none` where it returns
before it does anything. -/
def Op.body (g : Screen) : Op → Option (List Write × Rect)
  | .putPixel x y color =>
    if x ≥ g.width ∨ y ≥ g.height then none
    else some ([.store (g.cell x y) color], markDirtyRect (i32 x) (i32 y) 1 1)
  | .fillRect x y w h color =>
    let x0 := max x 0
    let y0 := max y 0
    let x1 := min (i32 (x + i32 w)) (i32 g.width)
    let y1 := min (i32 (y + i32 h)) (i32 g.height)
    if y1 > y0 ∧ x1 > x0 then
      some ((intRange y0 y1).flatMap fun py =>
        (intRange x0 x1).map fun px => .store (g.row px.toNat py.toNat) color,
        markDirtyRect x0 y0 (x1 - x0) (y1 - y0))
    else none
  | .blit dstX dstY src srcW srcH srcStride =>
    let x0 := max dstX 0
    let y0 := max dstY 0
    let x1 := min (i32 (dstX + i32 srcW)) (i32 g.width)
    let y1 := min (i32 (dstY + i32 srcH)) (i32 g.height)
    if x0 ≥ x1 ∨ y0 ≥ y1 then none
    else
      let skipX := (x0 - dstX).toNat
      let skipY := (y0 - dstY).toNat
      some ((intRange y0 y1).flatMap fun py =>
        let srcRow := ((py - y0).toNat + skipY) * srcStride % 2 ^ 32 + skipX
        (intRange x0 x1).map fun px =>
          .store (g.row px.toNat py.toNat) (src (srcRow + (px - x0).toNat)),
        markDirtyRect x0 y0 (x1 - x0) (y1 - y0))
  | .shiftUp lines bg =>
    let pixelLines := lines * lineHeight
    if lines = 0 ∨ lines ≥ g.heightChars ∨ pixelLines ≥ g.height then none
    else some
      ((rows g pixelLines g.height).map
        (fun p => .copy (g.cell p.1 (p.2 - pixelLines)) (g.cell p.1 p.2)) ++
        fillRows g (g.height - pixelLines) g.height bg, markDirty g)
  | .shiftDown lines bg =>
    let pixelLines := lines * lineHeight
    if lines = 0 ∨ lines ≥ g.heightChars ∨ pixelLines ≥ g.height then none
    else some
      (((List.range' pixelLines (g.height - pixelLines)).reverse.flatMap fun y =>
        (List.range g.width).map fun x => .copy (g.cell x y) (g.cell x (y - pixelLines))) ++
        fillRows g 0 pixelLines bg, markDirty g)
  | .clearEntireScreen bg => some (fillRows g 0 g.height bg, markDirty g)
  | .markAll => some ([], markDirty g)

/-- Every store goes to a visible pixel of the clipped rectangle. -/
def Within (g : Screen) (ws : List Write) (r : Rect) : Prop :=
  ∀ w ∈ ws, ∃ x y, g.Visible x y ∧ r.Mem x y ∧ w.dst = g.cell x y

theorem mem_rows {y0 y1 : Nat} {p : Nat × Nat} :
    p ∈ rows g y0 y1 ↔ p.1 < g.width ∧ y0 ≤ p.2 ∧ p.2 < y1 := by
  obtain ⟨x, y⟩ := p
  simp only [rows, mem_flatMap, mem_range'_1, mem_map, mem_range, Prod.mk.injEq]
  constructor
  · rintro ⟨y', hy', x', hx', rfl, rfl⟩
    omega
  · rintro ⟨hx, hy0, hy1⟩
    exact ⟨y, by omega, x, hx, rfl, rfl⟩

theorem mem_markDirty {x y : Nat} (h : g.Visible x y) : ((markDirty g).clip g).Mem x y := by
  obtain ⟨hw, hh⟩ := g.i32_sides h
  refine Rect.mem_clip h ?_
  obtain ⟨hx, hy⟩ := h
  unfold markDirty Rect.Mem
  rw [hw, hh]
  dsimp only
  omega

theorem within_fillRows {y0 y1 : Nat} {v : Pixel} (hy1 : y1 ≤ g.height) :
    Within g (fillRows g y0 y1 v) ((markDirty g).clip g) := by
  intro w hw
  obtain ⟨p, hp, rfl⟩ := mem_map.1 hw
  obtain ⟨hx, -, hy⟩ := mem_rows.1 hp
  have hvis : g.Visible p.1 p.2 := ⟨hx, by omega⟩
  exact ⟨p.1, p.2, hvis, mem_markDirty hvis, rfl⟩

theorem within_append {ws ws' : List Write} {r : Rect} (h : Within g ws r)
    (h' : Within g ws' r) : Within g (ws ++ ws') r := by
  intro w hw
  rcases mem_append.1 hw with hw | hw
  · exact h w hw
  · exact h' w hw

/-- The shared clipping of `gfx_fill_rect` and `gfx_blit`: the rectangle that is marked lies on the
screen and is not clipped again. -/
theorem clip_markDirtyRect {x0 y0 x1 y1 : Int} (hx0 : 0 ≤ x0) (hy0 : 0 ≤ y0) (hx : x0 < x1)
    (hy : y0 < y1) (hx1 : x1 ≤ i32 g.width) (hy1 : y1 ≤ i32 g.height) :
    (markDirtyRect x0 y0 (x1 - x0) (y1 - y0)).clip g = ⟨x0, y0, x1, y1⟩ := by
  have hw := i32_natCast_le g.width
  have hh := i32_natCast_le g.height
  obtain ⟨hsw, hsh⟩ := g.small (x := x0.toNat) (y := y0.toNat) (by unfold Screen.Visible; omega)
  unfold markDirtyRect Rect.clip
  rw [i32_of_lt (n := x0 + (x1 - x0)) (by omega) (by omega),
    i32_of_lt (n := y0 + (y1 - y0)) (by omega) (by omega), Rect.mk.injEq]
  dsimp only
  refine ⟨?_, ?_, ?_, ?_⟩ <;> split <;> omega

/-- The pixels between the clipped sides are visible and in the rectangle. -/
theorem within_markDirtyRect (x y a b : Int) (color : Int → Int → UInt32) :
    Within g ((intRange (max y 0) (min b (i32 g.height))).flatMap fun py =>
        (intRange (max x 0) (min a (i32 g.width))).map fun px =>
          .store (g.row px.toNat py.toNat) (color px py))
      ((markDirtyRect (max x 0) (max y 0) (min a (i32 g.width) - max x 0)
        (min b (i32 g.height) - max y 0)).clip g) := by
  intro w hmem
  obtain ⟨py, hpy, hmem⟩ := mem_flatMap.1 hmem
  obtain ⟨px, hpx, rfl⟩ := mem_map.1 hmem
  rw [mem_intRange] at hpx hpy
  have hw := i32_natCast_le g.width
  have hh := i32_natCast_le g.height
  rw [clip_markDirtyRect (Int.le_max_right _ _) (Int.le_max_right _ _) (by omega) (by omega)
    (by omega) (by omega)]
  have hvis : g.Visible px.toNat py.toNat := by
    unfold Screen.Visible
    omega
  exact ⟨_, _, hvis, by simp only [Rect.Mem]; omega, Screen.row_eq hvis⟩

theorem body_within {op : Op} {ws : List Write} {r : Rect}
    (h : op.body g = some (ws, r)) : Within g ws (r.clip g) := by
  cases op with
  | putPixel x y color =>
    simp only [Op.body] at h
    split at h
    · cases h
    rename_i hvis
    have hvis : g.Visible x y := by
      unfold Screen.Visible
      omega
    obtain ⟨hw, hh⟩ := g.small hvis
    cases h
    intro w hmem
    rw [mem_singleton.1 hmem]
    refine ⟨x, y, hvis, Rect.mem_clip hvis ?_, rfl⟩
    obtain ⟨hx, hy⟩ := hvis
    unfold markDirtyRect Rect.Mem
    dsimp only
    rw [i32_of_lt (n := x) (by omega) (by omega), i32_of_lt (n := y) (by omega) (by omega),
      i32_of_lt (n := x + 1) (by omega) (by omega),
      i32_of_lt (n := y + 1) (by omega) (by omega)]
    omega
  | fillRect x y w h' color =>
    simp only [Op.body] at h
    split at h
    · obtain ⟨rfl, rfl⟩ := Prod.mk.inj (Option.some.inj h)
      exact within_markDirtyRect _ _ _ _ _
    · cases h
  | blit dstX dstY src srcW srcH srcStride =>
    simp only [Op.body] at h
    split at h
    · cases h
    obtain ⟨rfl, rfl⟩ := Prod.mk.inj (Option.some.inj h)
    exact within_markDirtyRect _ _ _ _ _
  | shiftUp lines bg =>
    simp only [Op.body] at h
    split at h
    · cases h
    cases h
    refine within_append ?_ (within_fillRows (Nat.le_refl _))
    intro w hmem
    obtain ⟨p, hp, rfl⟩ := mem_map.1 hmem
    obtain ⟨hx, -, hy⟩ := mem_rows.1 hp
    have hvis : g.Visible p.1 (p.2 - lines * lineHeight) := ⟨hx, by omega⟩
    exact ⟨_, _, hvis, mem_markDirty hvis, rfl⟩
  | shiftDown lines bg =>
    simp only [Op.body] at h
    split at h
    · cases h
    cases h
    rename_i hlines
    have hle : lines * lineHeight ≤ g.height := by omega
    refine within_append ?_ (within_fillRows hle)
    intro w hmem
    obtain ⟨y, hy, hmem⟩ := mem_flatMap.1 hmem
    obtain ⟨x, hx, rfl⟩ := mem_map.1 hmem
    have hy' := mem_range'_1.1 (mem_reverse.1 hy)
    have hvis : g.Visible x y := ⟨mem_range.1 hx, by omega⟩
    exact ⟨_, _, hvis, mem_markDirty hvis, rfl⟩
  | clearEntireScreen bg =>
    cases h
    exact within_fillRows (Nat.le_refl _)
  | markAll =>
    cases h
    intro w hmem
    cases hmem

end Console
