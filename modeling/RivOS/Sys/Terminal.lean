import RivOS.Sys.Font
import RivOS.Sys.Screen

/-!
# Sys — The terminal

`terminal/terminal.hpp`: text on the framebuffer.  A character is 16 pixels wide and high; only the
pixels that are set in it are painted, and nothing scrolls: where the next character has no room
below, the screen is cleared.  A character from 128 on is looked up behind the end of the font, and
`putChar` is then undefined (`none`).

The text screen that this is meant to be (`Grid`) has columns and rows of characters with their
colours, and a cursor; everything from the cursor on is empty.

* `putChar_shows`: one character, on the framebuffer and on the text screen.
* `terminal_shows`: after every sequence of calls the framebuffer is the picture of the text screen,
  and nothing beside the screen has changed.
-/

namespace RivOS

structure Terminal where
  terminalX : UInt32
  terminalY : UInt32
  terminalColor : UInt8
  enabled : Bool
  pixels : Visuals.Pixels

namespace Terminal

def colorToRgb (color : UInt8) : UInt32 :=
  match (color &&& 0x0F).toNat with
  | 0 => 0x00000000
  | 1 => 0x000000AA
  | 2 => 0x0000AA00
  | 3 => 0x0000AAAA
  | 4 => 0x00AA0000
  | 5 => 0x00AA00AA
  | 6 => 0x00AA5500
  | 7 => 0x00AAAAAA
  | 8 => 0x00555555
  | 9 => 0x005555FF
  | 10 => 0x0055FF55
  | 11 => 0x0055FFFF
  | 12 => 0x00FF5555
  | 13 => 0x00FF55FF
  | 14 => 0x00FFFF55
  | _ => 0x00FFFFFF

/-- What the screen is cleared to. -/
def background : UInt32 := 0x00101010

def charWidth : UInt32 := 16
def charHeight : UInt32 := 16

/-- `LightGrey` on `Black`. -/
def init (v : Visuals) (t : Terminal) : Terminal :=
  { terminalX := 0, terminalY := 0, terminalColor := 7, enabled := true
    pixels := v.fillScreen background t.pixels }

def clear (v : Visuals) (t : Terminal) : Terminal :=
  { t with terminalX := 0, terminalY := 0, pixels := v.fillScreen background t.pixels }

/-- The cell at the cursor, in the colour of the background. -/
def blank (v : Visuals) (t : Terminal) : Visuals.Pixels :=
  (List.range 16).foldl (fun mem x => (List.range 16).foldl (fun mem y =>
    v.putPixel background (t.terminalX + UInt32.ofNat x) (t.terminalY + UInt32.ofNat y) mem)
      mem) t.pixels

def backspace (v : Visuals) (t : Terminal) : Terminal :=
  let t :=
    if t.terminalX ≥ charWidth then { t with terminalX := t.terminalX - charWidth }
    else if t.terminalY ≥ charHeight then
      { t with terminalY := t.terminalY - charHeight, terminalX := v.fbWidth - charWidth }
    else t
  { t with pixels := blank v t }

/-- `row & (1 << x)`. -/
def bit (row : UInt8) (x : Nat) : Bool := row.toNat.testBit x

/-- The four pixels that one pixel of the font is. -/
def square (X Y : UInt32) (x y : Nat) : List (UInt32 × UInt32) :=
  let px := X + UInt32.ofNat x * 2
  let py := Y + UInt32.ofNat y * 2
  [(px, py), (px + 1, py), (px, py + 1), (px + 1, py + 1)]

/-- The character at the cursor. -/
def draw (v : Visuals) (rows : List UInt8) (t : Terminal) : Visuals.Pixels :=
  (List.range 8).foldl (fun mem x => (List.range 8).foldl (fun mem y =>
    if bit (rows.getD y 0) x then
      v.paint (Visuals.flat (colorToRgb t.terminalColor) (square t.terminalX t.terminalY x y)) mem
    else mem) mem) t.pixels

def newline (t : Terminal) : Terminal :=
  { t with terminalX := 0, terminalY := t.terminalY + charHeight }

/-- The cursor where the next character fits. -/
def room (v : Visuals) (t : Terminal) : Terminal :=
  let t := if t.terminalX + charWidth > v.fbWidth then newline t else t
  if t.terminalY + charHeight > v.fbHeight then clear v t else t

def putChar (v : Visuals) (c : UInt8) (t : Terminal) : Option Terminal :=
  if !t.enabled then some t
  else if c = 8 then some (backspace v t)
  else if c = 10 then some (newline t)
  else
    let t := room v t
    (glyph c).map fun rows =>
      { t with pixels := draw v rows t, terminalX := t.terminalX + charWidth }

/-- The calls that change the terminal. -/
inductive Command where
  | putChar (c : UInt8)
  | setColor (color : UInt8)
  | enable
  | disable
  | clear
  | init

def exec (v : Visuals) (t : Terminal) : Command → Option Terminal
  | .putChar c => putChar v c t
  | .setColor color => some { t with terminalColor := color }
  | .enable => some { t with enabled := true }
  | .disable => some { t with enabled := false }
  | .clear => some (clear v t)
  | .init => some (init v t)

/-! ### The text screen -/

/-- A character and its colour, or nothing, in every place, and the cursor. -/
structure Grid where
  col : Nat
  row : Nat
  color : UInt8
  enabled : Bool
  shown : Nat → Nat → Option (UInt8 × UInt8)

namespace Grid

/-- The empty text screen. -/
def init : Grid := ⟨0, 0, 7, true, fun _ _ => none⟩

def clear (g : Grid) : Grid := { g with col := 0, row := 0, shown := fun _ _ => none }

/-- A place of the text screen is given this content. -/
def put (g : Grid) (s : Option (UInt8 × UInt8)) : Nat → Nat → Option (UInt8 × UInt8) :=
  fun col row => if col = g.col ∧ row = g.row then s else g.shown col row

/-- The cursor one place back; at the start of a line, to the end of the line before. -/
def back (cols : Nat) (g : Grid) : Grid :=
  if 0 < g.col then { g with col := g.col - 1 }
  else if 0 < g.row then { g with row := g.row - 1, col := cols - 1 }
  else g

/-- The cursor where the next character has its place, on `cols` columns and `rows` rows. -/
def room (cols rows : Nat) (g : Grid) : Grid :=
  let g := if g.col = cols then { g with col := 0, row := g.row + 1 } else g
  if rows ≤ g.row then clear g else g

def putChar (cols rows : Nat) (c : UInt8) (g : Grid) : Grid :=
  if !g.enabled then g
  else if c = 8 then
    let g := back cols g
    { g with shown := put g none }
  else if c = 10 then { g with col := 0, row := g.row + 1 }
  else
    let g := room cols rows g
    { g with shown := put g (some (c, g.color)), col := g.col + 1 }

def exec (cols rows : Nat) (g : Grid) : Command → Grid
  | .putChar c => putChar cols rows c g
  | .setColor color => { g with color }
  | .enable => { g with enabled := true }
  | .disable => { g with enabled := false }
  | .clear => clear g
  | .init => init

/-- The colour of a pixel in the picture of the text screen. -/
def pixel (g : Grid) (a b : Nat) : UInt32 :=
  match g.shown (a / 16) (b / 16) with
  | none => background
  | some (c, color) =>
      if bit (((glyph c).getD []).getD (b % 16 / 2) 0) (a % 16 / 2) then colorToRgb color
      else background

end Grid

/-! ### The framebuffer and the text screen -/

/-- A screen of whole columns. -/
structure Sized (v : Visuals) (cols : Nat) : Prop where
  fits : v.Fits
  width : v.fbWidth.toNat = 16 * cols
  pos : 0 < cols

/-- The terminal shows the text screen. -/
structure Shows (v : Visuals) (cols : Nat) (t : Terminal) (g : Grid) : Prop where
  x_eq : t.terminalX.toNat = 16 * g.col
  y_eq : t.terminalY.toNat = 16 * g.row
  color_eq : t.terminalColor = g.color
  enabled_eq : t.enabled = g.enabled
  /-- The cursor is on the line, or behind its end. -/
  col_le : g.col ≤ cols
  /-- From the cursor on the screen is empty. -/
  ahead : ∀ col row, col < cols → g.row < row ∨ g.row = row ∧ g.col ≤ col →
    g.shown col row = none
  pixels_eq : ∀ a b, v.On a b → t.pixels (v.cell a b) = g.pixel a.toNat b.toNat

variable {v : Visuals} {cols : Nat} {t t' : Terminal} {g : Grid} {a b X Y : UInt32} {c : UInt8}
  {rows : List UInt8}

/-- The points of the cell at `(X, Y)`. -/
def block (X Y : UInt32) : List (UInt32 × UInt32) :=
  Visuals.points (List.range 16) (List.range 16) fun x y =>
    [(X + UInt32.ofNat x, Y + UInt32.ofNat y)]

/-- In a cell. -/
def In (X Y a b : UInt32) : Prop :=
  X.toNat ≤ a.toNat ∧ a.toNat < X.toNat + 16 ∧ Y.toNat ≤ b.toNat ∧ b.toNat < Y.toNat + 16

instance (X Y a b : UInt32) : Decidable (In X Y a b) := inferInstanceAs (Decidable (_ ∧ _))

theorem add_toNat {n : Nat} (hX : X.toNat + n < 2 ^ 32) :
    (X + UInt32.ofNat n).toNat = X.toNat + n := by
  rw [UInt32.toNat_add, UInt32.toNat_ofNat', Nat.mod_eq_of_lt (by omega : n < 2 ^ 32),
    Nat.mod_eq_of_lt hX]

theorem mem_block (hX : X.toNat + 16 ≤ 2 ^ 32) (hY : Y.toNat + 16 ≤ 2 ^ 32) :
    (a, b) ∈ block X Y ↔ In X Y a b := by
  rw [block, Visuals.mem_points]
  constructor
  · rintro ⟨x, hx, y, hy, hmem⟩
    rw [List.mem_range] at hx hy
    obtain ⟨rfl, rfl⟩ := Prod.mk.inj (List.mem_singleton.mp hmem)
    rw [In, add_toNat (by omega), add_toNat (by omega)]
    omega
  · rintro ⟨hXa, haX, hYb, hbY⟩
    refine ⟨a.toNat - X.toNat, List.mem_range.mpr (by omega), b.toNat - Y.toNat,
      List.mem_range.mpr (by omega), List.mem_singleton.mpr (Prod.ext ?_ ?_)⟩
    · refine UInt32.toNat_inj.mp ?_
      simp only
      rw [add_toNat (by omega)]
      omega
    · refine UInt32.toNat_inj.mp ?_
      simp only
      rw [add_toNat (by omega)]
      omega

theorem blank_eq (v : Visuals) (t : Terminal) :
    blank v t = v.paint (Visuals.flat background (block t.terminalX t.terminalY)) t.pixels :=
  Visuals.foldl_paint _ _
    (fun x y => [(t.terminalX + UInt32.ofNat x, t.terminalY + UInt32.ofNat y)]) _

/-- The points that a character paints. -/
def strokes (rows : List UInt8) (X Y : UInt32) : List (UInt32 × UInt32) :=
  Visuals.points (List.range 8) (List.range 8) fun x y =>
    if bit (rows.getD y 0) x then square X Y x y else []

theorem draw_eq (v : Visuals) (rows : List UInt8) (t : Terminal) :
    draw v rows t = v.paint (Visuals.flat (colorToRgb t.terminalColor)
      (strokes rows t.terminalX t.terminalY)) t.pixels := by
  rw [strokes, ← Visuals.foldl_paint, draw]
  congr 1
  funext mem x
  congr 1
  funext mem y
  split <;> rfl

theorem mem_square {x y : Nat} (hx : x < 8) (hy : y < 8) (hX : X.toNat + 16 ≤ 2 ^ 32)
    (hY : Y.toNat + 16 ≤ 2 ^ 32) : (a, b) ∈ square X Y x y ↔
      (a.toNat = X.toNat + 2 * x ∨ a.toNat = X.toNat + 2 * x + 1) ∧
        (b.toNat = Y.toNat + 2 * y ∨ b.toNat = Y.toNat + 2 * y + 1) := by
  have hpos {Z : UInt32} {z : Nat} (hz : z < 8) (hZ : Z.toNat + 16 ≤ 2 ^ 32) :
      (Z + UInt32.ofNat z * 2).toNat = Z.toNat + 2 * z ∧
        (Z + UInt32.ofNat z * 2 + 1).toNat = Z.toNat + 2 * z + 1 := by
    have hmul : UInt32.ofNat z * 2 = UInt32.ofNat (2 * z) := by
      refine UInt32.toNat_inj.mp ?_
      rw [UInt32.toNat_mul, UInt32.toNat_ofNat', UInt32.toNat_ofNat',
        show (2 : UInt32).toNat = 2 from rfl]
      omega
    have h := add_toNat (X := Z) (n := 2 * z) (by omega)
    refine ⟨by rw [hmul, h], ?_⟩
    rw [hmul, UInt32.toNat_add, h, show (1 : UInt32).toNat = 1 from rfl]
    omega
  obtain ⟨hx₀, hx₁⟩ := hpos hx hX
  obtain ⟨hy₀, hy₁⟩ := hpos hy hY
  simp only [square, List.mem_cons, Prod.mk.injEq, ← UInt32.toNat_inj, hx₀, hx₁, hy₀, hy₁,
    List.not_mem_nil, or_false]
  omega

/-- A character paints the pixels of its cell that are set in it. -/
theorem mem_strokes (hX : X.toNat + 16 ≤ 2 ^ 32) (hY : Y.toNat + 16 ≤ 2 ^ 32) :
    (a, b) ∈ strokes rows X Y ↔ In X Y a b ∧
      bit (rows.getD ((b.toNat - Y.toNat) / 2) 0) ((a.toNat - X.toNat) / 2) = true := by
  rw [strokes, Visuals.mem_points]
  constructor
  · rintro ⟨x, hx, y, hy, hmem⟩
    rw [List.mem_range] at hx hy
    split at hmem
    · next hbit =>
        rw [mem_square hx hy hX hY] at hmem
        have hx' : (a.toNat - X.toNat) / 2 = x := by omega
        have hy' : (b.toNat - Y.toNat) / 2 = y := by omega
        rw [hx', hy', In]
        exact ⟨by omega, hbit⟩
    · cases hmem
  · rintro ⟨⟨hXa, haX, hYb, hbY⟩, hbit⟩
    refine ⟨(a.toNat - X.toNat) / 2, List.mem_range.mpr (by omega), (b.toNat - Y.toNat) / 2,
      List.mem_range.mpr (by omega), ?_⟩
    rw [if_pos hbit, mem_square (by omega) (by omega) hX hY]
    omega

/-! ### One call -/

/-- The cell at the cursor, as far as it is on the screen. -/
theorem in_iff {col row : Nat} (hX : X.toNat = 16 * col) (hY : Y.toNat = 16 * row) :
    In X Y a b ↔ a.toNat / 16 = col ∧ b.toNat / 16 = row := by
  rw [In, hX, hY]
  omega

theorem pixel_put {s : Option (UInt8 × UInt8)} {a b : Nat}
    (h : ¬ (a / 16 = g.col ∧ b / 16 = g.row)) :
    Grid.pixel { g with shown := g.put s } a b = g.pixel a b := by
  simp only [Grid.pixel, Grid.put, if_neg h]

theorem pixel_none {a b : Nat} (h : g.shown (a / 16) (b / 16) = none) :
    g.pixel a b = background := by
  rw [Grid.pixel, h]

theorem pixel_some {a b : Nat} {color : UInt8} (h : g.shown (a / 16) (b / 16) = some (c, color)) :
    g.pixel a b = if bit (((glyph c).getD []).getD (b % 16 / 2) 0) (a % 16 / 2) then colorToRgb color
      else background := by
  rw [Grid.pixel, h]

theorem Sized.lt (hs : Sized v cols) : 16 * cols < 2 ^ 30 := by
  have hrow := hs.fits.row
  have := v.fbPitch.toNat_lt
  have := hs.width
  omega

section

variable (hs : Sized v cols)
include hs

theorem Shows.clear (hcolor : t.terminalColor = g.color) (hen : t.enabled = g.enabled) :
    Shows v cols (clear v t) g.clear where
  x_eq := rfl
  y_eq := rfl
  color_eq := hcolor
  enabled_eq := hen
  col_le := Nat.zero_le _
  ahead _ _ _ _ := rfl
  pixels_eq _ _ hon := Visuals.fillScreen_shown hs.fits hon

theorem Shows.init (t : Terminal) : Shows v cols (init v t) .init where
  x_eq := rfl
  y_eq := rfl
  color_eq := rfl
  enabled_eq := rfl
  col_le := Nat.zero_le _
  ahead _ _ _ _ := rfl
  pixels_eq _ _ hon := Visuals.fillScreen_shown hs.fits hon

omit hs in
theorem Shows.newline (h : Shows v cols t g) (hrow : g.row + 2 < 2 ^ 28) :
    Shows v cols (newline t) { g with col := 0, row := g.row + 1 } where
  x_eq := rfl
  y_eq := by
    have hy := h.y_eq
    simp only [Terminal.newline, charHeight]
    rw [UInt32.toNat_add, hy, show (16 : UInt32).toNat = 16 from rfl]
    omega
  color_eq := h.color_eq
  enabled_eq := h.enabled_eq
  col_le := Nat.zero_le _
  ahead col row hcol hahead := by
    refine h.ahead col row hcol (.inl ?_)
    simp only at hahead
    omega
  pixels_eq := h.pixels_eq

/-- `room`, on both sides. -/
theorem Shows.room (h : Shows v cols t g) (hrow : g.row + 2 < 2 ^ 28) :
    Shows v cols (room v t) (g.room cols (v.fbHeight.toNat / 16)) ∧
      (g.room cols (v.fbHeight.toNat / 16)).row ≤ g.row + 1 ∧
      (g.room cols (v.fbHeight.toNat / 16)).col < cols := by
  have hlt := hs.lt
  have hpos := hs.pos
  have hsixteen : (16 : UInt32).toNat = 16 := rfl
  -- a new line, where the character does not fit into this one
  have hwrap : t.terminalX + charWidth > v.fbWidth ↔ g.col = cols := by
    have hx := h.x_eq
    have hle := h.col_le
    rw [gt_iff_lt, UInt32.lt_iff_toNat_lt, UInt32.toNat_add, charWidth, hx, hs.width, hsixteen]
    omega
  have hstep : ∃ t₁ g₁, Shows v cols t₁ g₁ ∧ g₁.row ≤ g.row + 1 ∧ g₁.col < cols ∧
      t₁ = (if t.terminalX + charWidth > v.fbWidth then Terminal.newline t else t) ∧
      g₁ = if g.col = cols then { g with col := 0, row := g.row + 1 } else g := by
    by_cases hcol : g.col = cols
    · rw [if_pos (hwrap.mpr hcol), if_pos hcol]
      exact ⟨_, _, h.newline hrow, Nat.le_refl _, hpos, rfl, rfl⟩
    · rw [if_neg (mt hwrap.mp hcol), if_neg hcol]
      exact ⟨_, _, h, Nat.le_succ _, Nat.lt_of_le_of_ne h.col_le hcol, rfl, rfl⟩
  obtain ⟨t₁, g₁, h₁, hrow₁, hcol₁, ht₁, hg₁⟩ := hstep
  rw [Terminal.room, Grid.room, ← ht₁, ← hg₁]
  have hbelow : t₁.terminalY + charHeight > v.fbHeight ↔ v.fbHeight.toNat / 16 ≤ g₁.row := by
    have hy := h₁.y_eq
    have := v.fbHeight.toNat_lt
    rw [gt_iff_lt, UInt32.lt_iff_toNat_lt, UInt32.toNat_add, charHeight, hy, hsixteen]
    omega
  by_cases hfull : v.fbHeight.toNat / 16 ≤ g₁.row
  · simp only [if_pos (hbelow.mpr hfull), if_pos hfull]
    exact ⟨.clear hs h₁.color_eq h₁.enabled_eq, Nat.zero_le _, hpos⟩
  · simp only [if_neg (mt hbelow.mp hfull), if_neg hfull]
    exact ⟨h₁, hrow₁, hcol₁⟩

/-- A character in an empty cell. -/
theorem Shows.draw (h : Shows v cols t g) (hrow : g.row + 2 < 2 ^ 28) (hcol : g.col < cols)
    (hc : glyph c = some rows) :
    Shows v cols { t with pixels := draw v rows t, terminalX := t.terminalX + charWidth }
      { g with shown := g.put (some (c, g.color)), col := g.col + 1 } where
  x_eq := by
    have hlt := hs.lt
    simp only [charWidth]
    rw [UInt32.toNat_add, h.x_eq, show (16 : UInt32).toNat = 16 from rfl]
    omega
  y_eq := h.y_eq
  color_eq := h.color_eq
  enabled_eq := h.enabled_eq
  col_le := hcol
  ahead col row hlt hahead := by
    simp only at hahead
    simp only [Grid.put]
    rw [if_neg (by omega)]
    exact h.ahead col row hlt (by omega)
  pixels_eq a b hon := by
    have hlt := hs.lt
    have hx := h.x_eq
    have hy := h.y_eq
    have hin := in_iff (a := a) (b := b) hx hy
    change Terminal.draw v rows t (v.cell a b) = _
    rw [draw_eq, Visuals.paint_flat hs.fits hon, h.pixels_eq a b hon]
    have hX : t.terminalX.toNat + 16 ≤ 2 ^ 32 := by omega
    have hY : t.terminalY.toNat + 16 ≤ 2 ^ 32 := by omega
    simp only [mem_strokes hX hY, hin]
    by_cases hat : a.toNat / 16 = g.col ∧ b.toNat / 16 = g.row
    · have hempty : g.shown (a.toNat / 16) (b.toNat / 16) = none :=
        h.ahead _ _ (by omega) (.inr ⟨hat.2.symm, Nat.le_of_eq hat.1.symm⟩)
      have ha : a.toNat - t.terminalX.toNat = a.toNat % 16 := by omega
      have hb : b.toNat - t.terminalY.toNat = b.toNat % 16 := by omega
      have hput : g.put (some (c, g.color)) (a.toNat / 16) (b.toNat / 16) = some (c, g.color) :=
        if_pos hat
      rw [ha, hb, pixel_none hempty, h.color_eq, pixel_some hput, hc, Option.getD_some]
      simp only [hat, and_self, true_and]
    · rw [if_neg fun hmem => hat hmem.1]
      exact (pixel_put (s := some (c, g.color)) hat).symm

/-- The cursor one place back. -/
theorem Shows.back (h : Shows v cols t g) :
    ∃ t₁ : Terminal, Terminal.backspace v t = { t₁ with pixels := blank v t₁ } ∧ t₁.pixels = t.pixels ∧
      t₁.terminalX.toNat = 16 * (g.back cols).col ∧ t₁.terminalY.toNat = 16 * (g.back cols).row ∧
      t₁.terminalColor = t.terminalColor ∧ t₁.enabled = t.enabled := by
  have hx := h.x_eq
  have hy := h.y_eq
  have hle := h.col_le
  have hwidth := hs.width
  have hpos := hs.pos
  have hsixteen : (16 : UInt32).toNat = 16 := rfl
  have hcol : t.terminalX ≥ charWidth ↔ 0 < g.col := by
    rw [ge_iff_le, UInt32.le_iff_toNat_le, charWidth, hsixteen]
    omega
  have hrow : t.terminalY ≥ charHeight ↔ 0 < g.row := by
    rw [ge_iff_le, UInt32.le_iff_toNat_le, charHeight, hsixteen]
    omega
  refine ⟨_, rfl, ?_⟩
  rw [Grid.back]
  by_cases h0 : 0 < g.col
  · simp only [if_pos (hcol.mpr h0), if_pos h0]
    have hge := UInt32.le_iff_toNat_le.mp (hcol.mpr h0)
    rw [UInt32.toNat_sub_of_le _ _ (hcol.mpr h0), charWidth, hsixteen]
    exact ⟨trivial, by omega, hy, trivial, trivial⟩
  · simp only [if_neg (mt hcol.mp h0), if_neg h0]
    by_cases hr : 0 < g.row
    · simp only [if_pos (hrow.mpr hr), if_pos hr]
      have hw : charWidth ≤ v.fbWidth := UInt32.le_iff_toNat_le.mpr (by
        rw [charWidth, hsixteen]
        omega)
      rw [UInt32.toNat_sub_of_le _ _ (hrow.mpr hr), UInt32.toNat_sub_of_le _ _ hw, charWidth,
        charHeight, hsixteen]
      exact ⟨trivial, by omega, by omega, trivial, trivial⟩
    · simp only [if_neg (mt hrow.mp hr), if_neg hr]
      exact ⟨trivial, hx, hy, trivial, trivial⟩

theorem back_le (hle : g.col ≤ cols) :
    (g.back cols).col ≤ cols ∧ (g.back cols).row ≤ g.row ∧
      (g.back cols).shown = g.shown ∧ (g.back cols).color = g.color ∧
      (g.back cols).enabled = g.enabled := by
  have := hs.pos
  rw [Grid.back]
  split
  · exact ⟨by simp only; omega, Nat.le_refl _, rfl, rfl, rfl⟩
  · split
    · exact ⟨by simp only; omega, by simp only; omega, rfl, rfl, rfl⟩
    · exact ⟨hle, Nat.le_refl _, rfl, rfl, rfl⟩

/-- From the place before on, only that place is not empty. -/
theorem back_ahead {col row : Nat} (hcol : col < cols)
    (h : (g.back cols).row < row ∨ (g.back cols).row = row ∧ (g.back cols).col ≤ col)
    (hne : ¬ (col = (g.back cols).col ∧ row = (g.back cols).row)) :
    g.row < row ∨ g.row = row ∧ g.col ≤ col := by
  have := hs.pos
  rw [Grid.back] at h hne
  split at h
  · next h0 =>
      rw [if_pos h0] at hne
      simp only at h hne
      omega
  · next h0 =>
      rw [if_neg h0] at hne
      split at h
      · next hr =>
          rw [if_pos hr] at hne
          simp only at h hne
          omega
      · exact h

theorem Shows.backspace (h : Shows v cols t g) (hrow : g.row + 2 < 2 ^ 28) :
    Shows v cols (backspace v t)
      { g.back cols with shown := (g.back cols).put none } := by
  obtain ⟨t₁, ht₁, hpx, hx, hy, hcolor, hen⟩ := h.back hs
  obtain ⟨hcol, hrow', hshown, hcolor', hen'⟩ := back_le hs h.col_le
  rw [ht₁]
  refine ⟨hx, hy, ?_, ?_, hcol, fun col row hlt hahead => ?_, fun a b hon => ?_⟩
  · exact (hcolor.trans h.color_eq).trans hcolor'.symm
  · exact (hen.trans h.enabled_eq).trans hen'.symm
  · simp only [Grid.put]
    split
    · rfl
    · next hne =>
        rw [hshown]
        exact h.ahead col row hlt (back_ahead hs hlt hahead hne)
  · have hlt := hs.lt
    have hin := in_iff (a := a) (b := b) hx hy
    change blank v t₁ (v.cell a b) = _
    rw [blank_eq, Visuals.paint_flat hs.fits hon, hpx, h.pixels_eq a b hon]
    simp only [mem_block (a := a) (b := b) (X := t₁.terminalX) (Y := t₁.terminalY) (by omega)
      (by omega), hin]
    split
    · next hat => exact (pixel_none (by simp only [Grid.put, if_pos hat])).symm
    · next hat =>
        rw [pixel_put hat]
        simp only [Grid.pixel, hshown]

/-- **One character**, on the framebuffer and on the text screen. -/
theorem putChar_shows (h : Shows v cols t g) (hrow : g.row + 3 < 2 ^ 28)
    (ht : putChar v c t = some t') :
    Shows v cols t' (g.putChar cols (v.fbHeight.toNat / 16) c) ∧
      (g.putChar cols (v.fbHeight.toNat / 16) c).row ≤ g.row + 1 := by
  rw [putChar] at ht
  rw [Grid.putChar]
  split at ht
  · next hen =>
      cases ht
      rw [if_pos (h.enabled_eq ▸ hen)]
      exact ⟨h, Nat.le_succ _⟩
  · next hen =>
      rw [if_neg (h.enabled_eq ▸ hen)]
      split at ht
      · next h8 =>
          cases ht
          rw [if_pos h8]
          obtain ⟨-, hle, -⟩ := back_le hs h.col_le
          exact ⟨h.backspace hs (by omega), Nat.le_succ_of_le hle⟩
      · next h8 =>
          rw [if_neg h8]
          split at ht
          · next h10 =>
              cases ht
              rw [if_pos h10]
              exact ⟨h.newline (by omega), Nat.le_refl _⟩
          · next h10 =>
              rw [if_neg h10]
              obtain ⟨rows, hrows, rfl⟩ := Option.map_eq_some_iff.mp ht
              obtain ⟨hroom, hle, hcol⟩ := h.room hs (by omega)
              exact ⟨hroom.draw hs (by omega) hcol hrows, hle⟩

/-- One call. -/
theorem exec_shows {cmd : Command} (h : Shows v cols t g) (hrow : g.row + 3 < 2 ^ 28)
    (ht : exec v t cmd = some t') :
    Shows v cols t' (g.exec cols (v.fbHeight.toNat / 16) cmd) ∧
      (g.exec cols (v.fbHeight.toNat / 16) cmd).row ≤ g.row + 1 := by
  cases cmd with
  | putChar c => exact putChar_shows hs h hrow ht
  | setColor color =>
      cases ht
      exact ⟨⟨h.x_eq, h.y_eq, rfl, h.enabled_eq, h.col_le, h.ahead, h.pixels_eq⟩, Nat.le_succ _⟩
  | enable | disable =>
      cases ht
      exact ⟨⟨h.x_eq, h.y_eq, h.color_eq, rfl, h.col_le, h.ahead, h.pixels_eq⟩, Nat.le_succ _⟩
  | clear =>
      cases ht
      exact ⟨.clear hs h.color_eq h.enabled_eq, Nat.zero_le _⟩
  | init =>
      cases ht
      exact ⟨.init hs t, Nat.zero_le _⟩

end

/-! ### All calls -/

theorem room_outside {addr : UInt32} (h : v.Outside addr) :
    (room v t).pixels addr = t.pixels addr := by
  have hclear (t₁ : Terminal) :
      (if t₁.terminalY + charHeight > v.fbHeight then clear v t₁ else t₁).pixels addr
        = t₁.pixels addr := by
    split
    · exact Visuals.fillScreen_outside h
    · rfl
  refine (hclear _).trans ?_
  split <;> rfl

theorem exec_outside {cmd : Command} {addr : UInt32} (h : v.Outside addr)
    (ht : exec v t cmd = some t') : t'.pixels addr = t.pixels addr := by
  cases cmd with
  | setColor | enable | disable =>
      cases ht
      rfl
  | clear | init =>
      cases ht
      exact Visuals.fillScreen_outside h
  | putChar c =>
      rw [exec, putChar] at ht
      split at ht
      · cases ht
        rfl
      split at ht
      · cases ht
        have hpx : ∀ t₁ : Terminal, t₁.pixels = t.pixels → blank v t₁ addr = t.pixels addr := by
          intro t₁ h₁
          rw [blank_eq, Visuals.paint_outside h, h₁]
        refine hpx _ ?_
        split
        · rfl
        · split <;> rfl
      split at ht
      · cases ht
        rfl
      obtain ⟨rows, -, rfl⟩ := Option.map_eq_some_iff.mp ht
      change draw v rows (room v t) addr = _
      rw [draw_eq, Visuals.paint_outside h, room_outside h]

/-- Only a character outside the font is undefined. -/
theorem exec_isSome (v : Visuals) (t : Terminal) (cmd : Command)
    (h : ∀ c, cmd = .putChar c → c < 128) :
    ∃ t', exec v t cmd = some t' := by
  cases cmd with
  | putChar c =>
      obtain ⟨rows, hrows⟩ := glyph_isSome (h c rfl)
      rw [exec, putChar]
      split; · exact ⟨_, rfl⟩
      split; · exact ⟨_, rfl⟩
      split; · exact ⟨_, rfl⟩
      exact ⟨_, Option.map_eq_some_iff.mpr ⟨rows, hrows, rfl⟩⟩
  | _ => exact ⟨_, rfl⟩

theorem foldlM_shows (hs : Sized v cols) {cmds : List Command}
    (hchars : ∀ c, .putChar c ∈ cmds → c < 128) (h : Shows v cols t g)
    (hrow : g.row + cmds.length + 3 < 2 ^ 28) :
    ∃ t', cmds.foldlM (exec v) t = some t' ∧
      Shows v cols t' (cmds.foldl (Grid.exec cols (v.fbHeight.toNat / 16)) g) ∧
      ∀ addr, v.Outside addr → t'.pixels addr = t.pixels addr := by
  induction cmds generalizing t g with
  | nil => exact ⟨t, rfl, h, fun _ _ => rfl⟩
  | cons cmd cmds ih =>
      rw [List.length_cons] at hrow
      obtain ⟨t₁, ht₁⟩ := exec_isSome v t cmd fun c hc => hchars c (hc ▸ List.mem_cons_self)
      obtain ⟨h₁, hrow₁⟩ := exec_shows hs h (by omega) ht₁
      obtain ⟨t', ht', h', hout⟩ := ih (fun c hc => hchars c (.tail _ hc)) h₁ (by omega)
      refine ⟨t', ?_, h', fun addr haddr => (hout addr haddr).trans (exec_outside haddr ht₁)⟩
      rw [List.foldlM_cons, ht₁]
      exact ht'

/-- A screen of 64 by 32 pixels, at address 0. -/
def someVisuals : Visuals := ⟨0, 256, 64, 32, 0⟩

/-- `a`, a new line, a step back and `b`. -/
def someCommands : List Command := [.putChar 97, .putChar 10, .putChar 8, .putChar 98]

end Terminal

end RivOS
