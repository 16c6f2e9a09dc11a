import Mathlib.Data.List.Basic
import RivOS.Lib.CString

/-!
# Boot — The terminal

`boot/term/term.c` and `boot/term/term.h`: the text screen at `VGA_MEMORY`, a cursor into it, and
`putc`.  Every function returns, beside the terminal, the cells it stores, in order, as addresses
with what is stored there.

`VGA_SIZE` is the screen in bytes, and `putc` compares it with the cursor only after the cursor has
moved, so a cursor just behind the last cell stays there; the clearing loops count `VGA_SIZE`
cells.

* `putc_of_lt`: on the screen, `putc` stores at the cursor and does not clear.
* `exists_off_screen`: behind the last cell, `putc` leaves the screen whatever it is given.
* `onScreen_iff`: a text stays on the screen exactly when its last character has a place there.
-/

namespace RivOS.Boot

def VGA_WIDTH : Nat := 80
def VGA_LENGTH : Nat := 25
def VGA_SIZE : Nat := VGA_WIDTH * VGA_LENGTH * 2
def VGA_MEMORY : Nat := 0xB8000
def VGA_COLOR_WHITE : UInt8 := 15

/-- `vgaCursor` is an address. -/
structure Terminal where
  vgaCursor : Nat
  activeColor : UInt8

/-- A `uint16_t` stored at an address. -/
abbrev Store := Nat × UInt16

/-- `&VGA_MEMORY[i]`. -/
def cell (i : Nat) : Nat := VGA_MEMORY + 2 * i

/-- The address is that of one of the cells of the screen. -/
def OnScreen (a : Nat) : Prop := ∃ i < VGA_WIDTH * VGA_LENGTH, a = cell i

/-- `for (uint16_t i = 0; i < VGA_SIZE; i++) term.vgaCursor[i] = ' '`. -/
def blanks : List Store := (List.range VGA_SIZE).map fun i => (cell i, 32)

def initTerm (_ : Terminal) : Terminal × List Store := (⟨VGA_MEMORY, VGA_COLOR_WHITE⟩, blanks)

def clearTerm (t : Terminal) : Terminal × List Store :=
  ({ t with vgaCursor := VGA_MEMORY }, blanks)

/-- `c | (term.activeColor << 8)`.  A `char` is signed. -/
def entry (c color : UInt8) : UInt16 :=
  UInt16.ofBitVec (c.toBitVec.signExtend 16 ||| color.toBitVec.setWidth 16 <<< 8)

/-- What `putc` does before it looks whether the screen is full. -/
def place (c : UInt8) (t : Terminal) : Terminal × List Store :=
  if c = 10 then
    let index := (t.vgaCursor - VGA_MEMORY) / 2
    ({ t with vgaCursor := cell (index + (VGA_WIDTH - index % VGA_WIDTH)) }, [])
  else
    ({ t with vgaCursor := t.vgaCursor + 2 }, [(t.vgaCursor, entry c t.activeColor)])

def putc (c : UInt8) (t : Terminal) : Terminal × List Store :=
  let placed := place c t
  if VGA_SIZE < placed.1.vgaCursor - VGA_MEMORY then
    let cleared := clearTerm placed.1
    (cleared.1, placed.2 ++ cleared.2)
  else placed

/-- `putc` for one character after another. -/
def putcs : List UInt8 → Terminal → Terminal × List Store
  | [], t => (t, [])
  | c :: s, t =>
      let first := putc c t
      let rest := putcs s first.1
      (rest.1, first.2 ++ rest.2)

/-! ### The place of a character -/

/-- The cell behind the character `c` in cell `i`, on a screen without an end. -/
def advance (i : Nat) (c : UInt8) : Nat :=
  if c = 10 then i + (VGA_WIDTH - i % VGA_WIDTH) else i + 1

/-- The cell behind the text `s`, on a screen without an end. -/
def behind (s : List UInt8) : Nat := s.foldl advance 0

variable {t : Terminal} {i : Nat} {c : UInt8} {s : List UInt8} {a : Nat}

theorem VGA_SIZE_eq : VGA_SIZE = 4000 := rfl

theorem onScreen_cell : OnScreen (cell i) ↔ i < 2000 := by
  constructor
  · rintro ⟨j, hj, h⟩
    have hij : i = j := by
      unfold cell at h
      omega
    exact hij ▸ hj
  · exact fun h => ⟨i, h, rfl⟩

theorem lt_advance : i < advance i c := by
  have h := Nat.mod_lt i (show 0 < VGA_WIDTH by decide)
  unfold advance
  split <;> omega

/-- A line ends at the end of the screen at the latest. -/
theorem advance_le (h : i < 2000) : advance i c ≤ 2000 := by
  unfold advance VGA_WIDTH
  split <;> omega

theorem le_foldl_advance : i ≤ s.foldl advance i := by
  induction s generalizing i with
  | nil => exact Nat.le_refl i
  | cons c s ih => exact Nat.le_trans (Nat.le_of_lt lt_advance) ih

theorem cell_sub : cell i - VGA_MEMORY = 2 * i := Nat.add_sub_cancel_left _ _

/-- `place` moves the cursor by `advance` and stores nothing or the cell it was in. -/
theorem place_cursor (h : t.vgaCursor = cell i) :
    (place c t).1.vgaCursor = cell (advance i c) := by
  unfold place advance
  split
  · dsimp only
    rw [h, cell_sub, Nat.mul_div_cancel_left i Nat.two_pos]
  · dsimp only
    rw [h]
    rfl

theorem place_stores (h : t.vgaCursor = cell i) {x : Store} (hx : x ∈ (place c t).2) :
    x.1 = cell i := by
  unfold place at hx
  split at hx
  · cases hx
  · rw [List.mem_singleton.mp hx, ← h]

/-! ### On the screen -/

theorem putcs_cons : (putcs (c :: s) t).2 = (putc c t).2 ++ (putcs s (putc c t).1).2 := by
  rw [putcs]

theorem putc_eq : putc c t =
    if VGA_SIZE < (place c t).1.vgaCursor - VGA_MEMORY then
      ((clearTerm (place c t).1).1, (place c t).2 ++ (clearTerm (place c t).1).2)
    else place c t := by
  rw [putc]

/-- On the screen, `putc` does not clear. -/
theorem putc_of_lt (h : t.vgaCursor = cell i) (hi : i < 2000) : putc c t = place c t := by
  have hle := advance_le (c := c) hi
  have hfull : ¬ VGA_SIZE < (place c t).1.vgaCursor - VGA_MEMORY := by
    rw [place_cursor h, cell_sub, VGA_SIZE_eq]
    omega
  rw [putc_eq, if_neg hfull]

/-- The screen is cleared once more behind its end. -/
theorem off_screen_mem_clearTerm (t : Terminal) : (cell 2000, 32) ∈ (clearTerm t).2 := by
  unfold clearTerm blanks
  have hlt : 2000 < VGA_SIZE := by
    rw [VGA_SIZE_eq]
    decide
  rw [List.mem_map]
  refine ⟨2000, ?_, ?_⟩
  · exact List.mem_range.mpr hlt
  · rfl

/-- **Behind the last cell**, a newline clears more than the screen, and any other character is
stored where the cursor is. -/
theorem exists_off_screen (h : t.vgaCursor = cell 2000) :
    ∃ x ∈ (putc c t).2, ¬ OnScreen x.1 := by
  have hoff : ¬ OnScreen (cell 2000) := fun h => absurd (onScreen_cell.mp h) (Nat.lt_irrefl 2000)
  have hfull : VGA_SIZE < (place c t).1.vgaCursor - VGA_MEMORY := by
    have := lt_advance (i := 2000) (c := c)
    rw [place_cursor h, cell_sub, VGA_SIZE_eq]
    omega
  refine ⟨(cell 2000, 32), ?_, hoff⟩
  rw [putc_eq, if_pos hfull]
  exact List.mem_append_right _ (off_screen_mem_clearTerm _)

theorem onScreen_iff_of_cursor (h : t.vgaCursor = cell i) (hi : i < 2000) :
    (∀ x ∈ (putcs s t).2, OnScreen x.1) ↔ s.dropLast.foldl advance i < 2000 := by
  induction s generalizing t i with
  | nil => exact iff_of_true (fun x hx => by cases hx) hi
  | cons c s ih =>
      have hc : ∀ x ∈ (place c t).2, OnScreen x.1 := fun x hx =>
        place_stores h hx ▸ onScreen_cell.mpr hi
      rw [putcs_cons, putc_of_lt h hi, List.forall_mem_append, and_iff_right hc]
      rcases s with _ | ⟨d, s⟩
      · exact iff_of_true (fun x hx => by cases hx) hi
      rw [List.dropLast_cons_cons, List.foldl_cons]
      rcases Nat.lt_or_eq_of_le (advance_le (c := c) hi) with hlt | hend
      · exact ih (place_cursor h) hlt
      · -- The cursor has come to the end of the screen with `d` still to be put.
        have hcursor := place_cursor (c := c) h
        rw [hend] at hcursor ⊢
        have hle : 2000 ≤ (d :: s).dropLast.foldl advance 2000 := le_foldl_advance
        obtain ⟨x, hx, hoff⟩ := exists_off_screen (c := d) hcursor
        refine iff_of_false (fun hall => hoff (hall x ?_)) (Nat.not_lt.mpr hle)
        rw [putcs_cons]
        exact List.mem_append_left _ hx

/-- From the start of the screen. -/
theorem onScreen_iff (h : t.vgaCursor = VGA_MEMORY) :
    (∀ x ∈ (putcs s t).2, OnScreen x.1) ↔ behind s.dropLast < 2000 :=
  onScreen_iff_of_cursor (i := 0) h (by decide)

/-- **What `putc` stores lies on the screen** exactly as long as the last character of the text
comes before the end of the screen. -/
theorem putcs_onScreen_iff (t : Terminal) (s : List UInt8) :
    ((∀ x ∈ (putcs s (initTerm t).1).2, OnScreen x.1) ↔
        behind s.dropLast < VGA_WIDTH * VGA_LENGTH) ∧
      ((∀ x ∈ (putcs s (clearTerm t).1).2, OnScreen x.1) ↔
        behind s.dropLast < VGA_WIDTH * VGA_LENGTH) :=
  ⟨onScreen_iff rfl, onScreen_iff rfl⟩

/-- Text without newlines takes a cell a character. -/
theorem behind_replicate {n : Nat} (hc : c ≠ 10) : behind (List.replicate n c) = n := by
  induction n with
  | zero => rfl
  | succ n ih =>
      rw [behind] at ih
      rw [behind, List.replicate_succ', List.foldl_append, ih]
      exact if_neg hc

/-- The 2001st of 2001 letters is stored behind the screen. -/
theorem putcs_onScreen_full :
    ¬ ∀ (t : Terminal) (s : List UInt8), ∀ x ∈ (putcs s (initTerm t).1).2, OnScreen x.1 := by
  intro h
  have hlt := (onScreen_iff rfl).mp (h ⟨VGA_MEMORY, 0⟩ (List.replicate 2001 65))
  rw [List.dropLast_replicate, behind_replicate (by decide)] at hlt
  exact absurd hlt (Nat.lt_irrefl 2000)

end RivOS.Boot
