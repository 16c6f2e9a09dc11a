import RivOS.Sys.Protection

/-!
# Sys — What is on the screen

`Visuals::putPixel` and `Visuals::fillScreen` (`vis/vis.hpp`), as changes of the picture.  A point of
the screen is painted where it is written, in the colour of the last write there; a write outside the
screen does nothing, and no address but those of the cells of the screen is ever changed.  This
needs a framebuffer whose rows are long enough for the screen, and that fits the address space
(`Fits`).

* `paint_of_mem`, `paint_of_notMem`: a point after a list of writes.
* `fillScreen_shown`: every point, behind `fillScreen`.
-/

namespace RivOS

namespace Visuals

/-- The rows of the framebuffer hold those of the screen, in 32 bits of addresses. -/
structure Fits (v : Visuals) : Prop where
  row : 4 * v.fbWidth.toNat ≤ v.fbPitch.toNat
  space : v.fbPitch.toNat * v.fbHeight.toNat < 2 ^ 32

/-- `(x, y)` is a point of the screen. -/
def On (v : Visuals) (x y : UInt32) : Prop := x < v.fbWidth ∧ y < v.fbHeight

instance (v : Visuals) (x y : UInt32) : Decidable (v.On x y) := inferInstanceAs (Decidable (_ ∧ _))

/-- The arguments of a call of `putPixel`. -/
structure Write where
  argb : UInt32
  x : UInt32
  y : UInt32

/-- Calls of `putPixel`, one after the other. -/
def paint (v : Visuals) (ws : List Write) (mem : Pixels) : Pixels :=
  ws.foldl (fun mem w => v.putPixel w.argb w.x w.y mem) mem

/-- `for (u32 y ...) for (u32 x ...) putPixel(argb, x, y)`. -/
def fillScreen (v : Visuals) (argb : UInt32) (mem : Pixels) : Pixels :=
  (List.range v.fbHeight.toNat).foldl (fun mem y =>
    (List.range v.fbWidth.toNat).foldl (fun mem x =>
      v.putPixel argb (UInt32.ofNat x) (UInt32.ofNat y) mem) mem) mem

variable {v : Visuals} {argb x y a b : UInt32} {mem : Pixels} {ws : List Write}

theorem putPixel_off (h : ¬ v.On x y) : v.putPixel argb x y mem = mem := by
  rw [putPixel, if_pos]
  by_contra hc
  rw [not_or, ge_iff_le, ge_iff_le, UInt32.not_le, UInt32.not_le] at hc
  exact h hc

theorem putPixel_on (h : v.On x y) :
    v.putPixel argb x y mem = Function.update mem (v.cell x y) argb := by
  have hc : ¬ (x ≥ v.fbWidth ∨ y ≥ v.fbHeight) := by
    rw [not_or, ge_iff_le, ge_iff_le, UInt32.not_le, UInt32.not_le]
    exact h
  rw [putPixel, if_neg hc]
  funext c
  rw [Function.update_apply]

/-- One write, at a point of the screen. -/
theorem putPixel_shown (hv : v.Fits) (h : v.On a b) :
    v.putPixel argb x y mem (v.cell a b)
      = if x = a ∧ y = b then argb else mem (v.cell a b) := by
  by_cases hon : v.On x y
  · rw [putPixel_on hon, Function.update_apply]
    by_cases he : v.cell a b = v.cell x y
    · obtain ⟨rfl, rfl⟩ := cell_inj hv.row hv.space h.1 h.2 hon.1 hon.2 he
      rw [if_pos rfl, if_pos ⟨rfl, rfl⟩]
    · rw [if_neg he, if_neg]
      rintro ⟨rfl, rfl⟩
      exact he rfl
  · rw [putPixel_off hon, if_neg]
    rintro ⟨rfl, rfl⟩
    exact hon h

/-! ### Lists of writes -/

@[simp] theorem paint_nil : v.paint [] mem = mem := rfl

@[simp] theorem paint_cons (w : Write) :
    v.paint (w :: ws) mem = v.paint ws (v.putPixel w.argb w.x w.y mem) := rfl

theorem paint_append (ws us : List Write) : v.paint (ws ++ us) mem = v.paint us (v.paint ws mem) :=
  List.foldl_append

/-- No write there. -/
theorem paint_of_notMem (hv : v.Fits) (h : v.On a b) (hws : ∀ w ∈ ws, ¬ (w.x = a ∧ w.y = b)) :
    v.paint ws mem (v.cell a b) = mem (v.cell a b) := by
  induction ws generalizing mem with
  | nil => rfl
  | cons w ws ih =>
      obtain ⟨hw, hws⟩ := List.forall_mem_cons.mp hws
      rw [paint_cons, ih hws, putPixel_shown hv h, if_neg hw]

/-- Every write there has the colour, and there is one. -/
theorem paint_of_mem (hv : v.Fits) (h : v.On a b)
    (hws : ∀ w ∈ ws, w.x = a ∧ w.y = b → w.argb = argb) (hw : ∃ w ∈ ws, w.x = a ∧ w.y = b) :
    v.paint ws mem (v.cell a b) = argb := by
  induction ws generalizing mem with
  | nil =>
      obtain ⟨w, hw, -⟩ := hw
      cases hw
  | cons w ws ih =>
      obtain ⟨hcolour, hws⟩ := List.forall_mem_cons.mp hws
      rw [paint_cons]
      by_cases htail : ∃ u ∈ ws, u.x = a ∧ u.y = b
      · exact ih hws htail
      · have hnone : ∀ u ∈ ws, ¬ (u.x = a ∧ u.y = b) := fun u hu hat => htail ⟨u, hu, hat⟩
        obtain ⟨u, hu, hat⟩ := hw
        rcases List.mem_cons.mp hu with rfl | hu
        · rw [paint_of_notMem hv h hnone, putPixel_shown hv h, if_pos hat, hcolour hat]
        · exact absurd hat (hnone u hu)

/-- The address is that of no cell of the screen. -/
def Outside (v : Visuals) (addr : UInt32) : Prop := ∀ a b, v.On a b → addr ≠ v.cell a b

/-- What is outside the screen stays. -/
theorem paint_outside {addr : UInt32} (h : v.Outside addr) : v.paint ws mem addr = mem addr := by
  induction ws generalizing mem with
  | nil => rfl
  | cons w ws ih =>
      rw [paint_cons, ih]
      by_cases hon : v.On w.x w.y
      · rw [putPixel_on hon, Function.update_of_ne (h w.x w.y hon)]
      · rw [putPixel_off hon]

/-! ### The same colour everywhere -/

/-- Writes of one colour. -/
def flat (argb : UInt32) (points : List (UInt32 × UInt32)) : List Write :=
  points.map fun p => ⟨argb, p.1, p.2⟩

theorem paint_flat (hv : v.Fits) (h : v.On a b) (points : List (UInt32 × UInt32)) :
    v.paint (flat argb points) mem (v.cell a b)
      = if (a, b) ∈ points then argb else mem (v.cell a b) := by
  split
  · next hmem =>
      refine paint_of_mem hv h (fun w hw _ => ?_) ⟨⟨argb, a, b⟩, ?_, rfl, rfl⟩
      · obtain ⟨p, -, rfl⟩ := List.mem_map.mp hw
        rfl
      · exact List.mem_map.mpr ⟨(a, b), hmem, rfl⟩
  · next hmem =>
      refine paint_of_notMem hv h fun w hw hat => hmem ?_
      obtain ⟨p, hp, rfl⟩ := List.mem_map.mp hw
      obtain ⟨rfl, rfl⟩ := hat
      exact hp

/-- The points that two nested loops go through. -/
def points (xs ys : List Nat) (f : Nat → Nat → List (UInt32 × UInt32)) : List (UInt32 × UInt32) :=
  xs.flatMap fun x => ys.flatMap fun y => f x y

theorem mem_points {xs ys : List Nat} {f : Nat → Nat → List (UInt32 × UInt32)}
    {p : UInt32 × UInt32} : p ∈ points xs ys f ↔ ∃ x ∈ xs, ∃ y ∈ ys, p ∈ f x y := by
  simp [points]

/-- Two nested loops that paint. -/
theorem foldl_paint (xs ys : List Nat) (f : Nat → Nat → List (UInt32 × UInt32)) (mem : Pixels) :
    xs.foldl (fun mem x => ys.foldl (fun mem y => v.paint (flat argb (f x y)) mem) mem) mem
      = v.paint (flat argb (points xs ys f)) mem := by
  have inner (x : Nat) (ys : List Nat) (mem : Pixels) :
      ys.foldl (fun mem y => v.paint (flat argb (f x y)) mem) mem
        = v.paint (flat argb (ys.flatMap fun y => f x y)) mem := by
    induction ys generalizing mem with
    | nil => rfl
    | cons y ys ih =>
        rw [List.foldl_cons, ih, List.flatMap_cons, flat, flat, flat, List.map_append, paint_append]
  induction xs generalizing mem with
  | nil => rfl
  | cons x xs ih =>
      rw [List.foldl_cons, inner, ih, points, points, List.flatMap_cons, flat, flat, flat,
        List.map_append, paint_append]

theorem fillScreen_eq : v.fillScreen argb mem
    = v.paint (flat argb (points (List.range v.fbHeight.toNat) (List.range v.fbWidth.toNat)
        fun y x => [(UInt32.ofNat x, UInt32.ofNat y)])) mem :=
  foldl_paint _ _ (fun y x => [(UInt32.ofNat x, UInt32.ofNat y)]) mem

/-- `fillScreen` paints every point. -/
theorem fillScreen_shown (hv : v.Fits) (h : v.On a b) :
    v.fillScreen argb mem (v.cell a b) = argb := by
  rw [fillScreen_eq, paint_flat hv h, if_pos]
  refine mem_points.mpr ⟨b.toNat, List.mem_range.mpr (UInt32.lt_iff_toNat_lt.mp h.2), a.toNat,
    List.mem_range.mpr (UInt32.lt_iff_toNat_lt.mp h.1), ?_⟩
  simp

theorem fillScreen_outside {addr : UInt32} (h : v.Outside addr) :
    v.fillScreen argb mem addr = mem addr := by
  rw [fillScreen_eq, paint_outside h]

end Visuals

end RivOS
