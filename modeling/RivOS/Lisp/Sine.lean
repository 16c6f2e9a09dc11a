import Mathlib.Tactic.Linarith
import Mathlib.Tactic.Ring
import RivOS.Lisp.Exec

/-!
# Lisp — The sine

`sinInt` (`sbinSrc/de/lisp/lisp.c`) once more, with every operation on an `int` checked: signed
overflow is undefined, and `Checked.sinInt` stops there.

An angle is wrapped into `-3141 .. 3141` first (`angle`), and `parabola` is what is computed of it
then, on integers.

* `wrapped`: the two loops leave the one representative of the angle.
* `computes_sinInt`: no operation overflows, and the result is the parabola at the angle.
* `sinInt_eq_of_checked`: where nothing overflows, the arithmetic of 32-bit words is the same.
-/

namespace RivOS

namespace Lisp

/-- How a computation with `int`s ends early. -/
inductive Trap where
  | overflow
  /-- No turns left: the model's own bound. -/
  | fuel
deriving DecidableEq

namespace Checked

/-- The result of an operation that does not overflow. -/
def exact (overflows : Bool) (v : Word) : Except Trap Word :=
  if overflows then .error .overflow else .ok v

def add (a b : Word) : Except Trap Word := exact (a.saddOverflow b) (a + b)
def sub (a b : Word) : Except Trap Word := exact (a.ssubOverflow b) (a - b)
def mul (a b : Word) : Except Trap Word := exact (a.smulOverflow b) (a * b)
def div (a b : Word) : Except Trap Word := exact (a.sdivOverflow b) (a.sdiv b)
def neg (a : Word) : Except Trap Word := exact a.negOverflow (-a)

def wrapDown (x : Word) : Except Trap (Word ⊕ Word) :=
  if 3141 < x.toInt then (sub x 6283).map .inl else .ok (.inr x)

def wrapUp (x : Word) : Except Trap (Word ⊕ Word) :=
  if x.toInt < -3141 then (add x 6283).map .inl else .ok (.inr x)

def absInt (x : Word) : Except Trap Word := if x.toInt < 0 then neg x else .ok x

/-- The two lines behind the loops. -/
def parabola (x : Word) : Except Trap Word := do
  let scaled ← mul (← absInt x) 1000
  let y ← div (← mul x (← sub 1000 (← div scaled 3141))) 1000
  let square ← div (← mul y (← absInt y)) 1000
  add (← div (← mul 225 (← sub square y)) 1000) y

def sinInt (x : Word) : Except Trap Word := do
  let x ← loop wrapDown .fuel (fun x => x.toInt.natAbs) x
  let x ← loop wrapUp .fuel (fun x => x.toInt.natAbs) x
  parabola x

end Checked

/-! ### Operations that do not overflow -/

/-- The numbers an `int` holds. -/
def Fits (v : Int) : Prop := -2 ^ 31 ≤ v ∧ v < 2 ^ 31

variable {a b x y w : Word} {v : Int} {overflows : Bool}

theorem fits_toInt (x : Word) : Fits x.toInt := ⟨x.le_toInt, x.toInt_lt⟩

namespace Checked

theorem exact_eq_ok : exact overflows x = .ok y ↔ overflows = false ∧ x = y := by
  cases overflows <;> simp [exact]

theorem not_overflow (h : Fits v) :
    ¬ (decide (v ≥ 2 ^ (32 - 1)) || decide (v < -2 ^ (32 - 1))) = true := by
  obtain ⟨hlo, hhi⟩ := h
  rw [Bool.or_eq_true, decide_eq_true_eq, decide_eq_true_eq]
  omega

theorem add_of_fits (hv : a.toInt + b.toInt = v) (h : Fits v) :
    ∃ c, add a b = .ok c ∧ c.toInt = v := by
  subst hv
  exact ⟨_, exact_eq_ok.mpr ⟨Bool.eq_false_iff.mpr (not_overflow h), rfl⟩,
    BitVec.toInt_add_of_not_saddOverflow (not_overflow h)⟩

theorem sub_of_fits (hv : a.toInt - b.toInt = v) (h : Fits v) :
    ∃ c, sub a b = .ok c ∧ c.toInt = v := by
  subst hv
  exact ⟨_, exact_eq_ok.mpr ⟨Bool.eq_false_iff.mpr (not_overflow h), rfl⟩,
    BitVec.toInt_sub_of_not_ssubOverflow (not_overflow h)⟩

theorem mul_of_fits (hv : a.toInt * b.toInt = v) (h : Fits v) :
    ∃ c, mul a b = .ok c ∧ c.toInt = v := by
  subst hv
  exact ⟨_, exact_eq_ok.mpr ⟨Bool.eq_false_iff.mpr (not_overflow h), rfl⟩,
    BitVec.toInt_mul_of_not_smulOverflow (not_overflow h)⟩

theorem neg_of_fits (hv : -a.toInt = v) (h : Fits v) : ∃ c, neg a = .ok c ∧ c.toInt = v := by
  subst hv
  have hover : ¬ a.negOverflow := by
    obtain ⟨hlo, hhi⟩ := h
    simp only [BitVec.negOverflow, beq_iff_eq]
    omega
  exact ⟨_, exact_eq_ok.mpr ⟨Bool.eq_false_iff.mpr hover, rfl⟩,
    BitVec.toInt_neg_of_not_negOverflow hover⟩

/-- A division by a positive number does not overflow. -/
theorem div_of_pos (hv : a.toInt.tdiv b.toInt = v) (hb : 0 < b.toInt) :
    ∃ c, div a b = .ok c ∧ c.toInt = v := by
  subst hv
  obtain ⟨hlo, hhi⟩ := fits_toInt a
  have hlt : a.toInt / b.toInt < 2 ^ 31 := Int.ediv_lt_of_lt_mul hb (by omega)
  have hge : -2 ^ 31 ≤ a.toInt / b.toInt := Int.le_ediv_of_mul_le hb (by omega)
  have hover : ¬ a.sdivOverflow b := by
    simp only [BitVec.sdivOverflow, Bool.or_eq_true, decide_eq_true_eq]
    omega
  have hne : b ≠ -1 := by
    rintro rfl
    exact absurd hb (by decide)
  exact ⟨_, exact_eq_ok.mpr ⟨Bool.eq_false_iff.mpr hover, rfl⟩,
    BitVec.toInt_sdiv_of_ne_or_ne _ _ (.inr hne)⟩

end Checked

/-! ### The parabola -/

/-- What the parabola makes of an angle `n` from 0 on, before the correction. -/
def arch (n : Nat) : Nat := n * (1000 - n * 1000 / 3141) / 1000

/-- What the parabola makes of an angle `n` from 0 on. -/
def wave (n : Nat) : Nat := arch n - 225 * (arch n - arch n * arch n / 1000) / 1000

variable {n m k : Nat} {s : Int}

theorem arch_le (h : n ≤ 3141) : arch n ≤ 1000 := by
  have hq : n * 1000 < 3141 * (n * 1000 / 3141 + 1) := by omega
  have hq₁ : n * 1000 / 3141 ≤ 1000 := by omega
  unfold arch
  generalize n * 1000 / 3141 = q at hq hq₁ ⊢
  obtain ⟨d, hd⟩ : ∃ d, 1000 = q + d := ⟨1000 - q, by omega⟩
  have hsub : 1000 - q = d := by omega
  have hlt : 3141 * d + 1000 * n < 3141 * 1001 := by omega
  have hle : n * d ≤ 1000000 := by nlinarith [sq_nonneg ((2000 : Int) * n - 3141 * 1001)]
  rw [hsub]
  omega

theorem arch_sq_le (h : n ≤ 3141) : arch n * arch n / 1000 ≤ arch n := by
  have hle : arch n * arch n ≤ arch n * 1000 := Nat.mul_le_mul_left _ (arch_le h)
  omega

theorem wave_le (h : n ≤ 3141) : wave n ≤ 1000 :=
  Nat.le_trans (Nat.sub_le _ _) (arch_le h)

/-- A sign. -/
abbrev IsSign (s : Int) : Prop := s = 1 ∨ s = -1

theorem fits_signed (hs : IsSign s) (h : n < 2 ^ 31) : Fits (s * n) := by
  unfold Fits
  rcases hs with rfl | rfl <;> omega

theorem signed_tdiv (hs : IsSign s) :
    (s * (n : Int)).tdiv (m : Int) = s * ((n / m : Nat) : Int) := by
  rcases hs with rfl | rfl
  · rw [Int.one_mul, Int.one_mul, Int.ofNat_tdiv]
  · rw [Int.neg_one_mul, Int.neg_one_mul, Int.neg_tdiv, Int.ofNat_tdiv]

namespace Checked

theorem absInt_signed (hs : IsSign s) (h : x.toInt = s * n) (hn : n < 2 ^ 31) :
    ∃ a, absInt x = .ok a ∧ a.toInt = n := by
  unfold absInt
  split
  · refine neg_of_fits ?_ ⟨by omega, by omega⟩
    rcases hs with rfl | rfl <;> omega
  · refine ⟨x, rfl, ?_⟩
    rcases hs with rfl | rfl <;> omega

/-- **The parabola**: on `-3141 .. 3141` no operation overflows. -/
theorem parabola_signed (hs : IsSign s) (h : x.toInt = s * n) (hn : n ≤ 3141) :
    ∃ v, parabola x = .ok v ∧ v.toInt = s * wave n := by
  have harch := arch_le hn
  have hsq := arch_sq_le hn
  have hsq₁ : arch n * arch n ≤ 1000 * 1000 := Nat.mul_le_mul harch harch
  have hramp : n * (1000 - n * 1000 / 3141) ≤ 3141 * 1000 :=
    Nat.mul_le_mul hn (Nat.sub_le _ _)
  have hcorr : 225 * (arch n - arch n * arch n / 1000) / 1000 ≤ arch n := by omega
  have hneg : IsSign (-s) := by
    rcases hs with rfl | rfl
    · exact .inr rfl
    · exact .inl rfl
  obtain ⟨a, ha, hav⟩ := absInt_signed hs h (by omega)
  obtain ⟨scaled, hscaled, hsv⟩ := mul_of_fits (a := a) (b := 1000) (v := (n * 1000 : Nat))
    (by rw [hav]; rfl) ⟨by omega, by omega⟩
  obtain ⟨q, hq, hqv⟩ := div_of_pos (a := scaled) (b := 3141) (v := (n * 1000 / 3141 : Nat))
    (by rw [hsv]; rfl) (by decide)
  obtain ⟨d, hd, hdv⟩ := sub_of_fits (a := 1000) (b := q) (v := (1000 - n * 1000 / 3141 : Nat))
    (by rw [hqv]; change 1000 - _ = _; omega) ⟨by omega, by omega⟩
  obtain ⟨p, hp, hpv⟩ := mul_of_fits (a := x) (b := d)
    (v := s * ((n * (1000 - n * 1000 / 3141) : Nat) : Int))
    (by rw [h, hdv, Nat.cast_mul, mul_assoc]) (fits_signed hs (by omega))
  obtain ⟨y, hy, hyv⟩ := div_of_pos (a := p) (b := 1000) (v := s * (arch n : Int))
    (by rw [hpv]; exact signed_tdiv hs) (by decide)
  obtain ⟨b, hb, hbv⟩ := absInt_signed hs hyv (by omega)
  obtain ⟨t, ht, htv⟩ := mul_of_fits (a := y) (b := b) (v := s * ((arch n * arch n : Nat) : Int))
    (by rw [hyv, hbv, Nat.cast_mul, mul_assoc]) (fits_signed hs (by omega))
  obtain ⟨square, hsquare, hsquarev⟩ := div_of_pos (a := t) (b := 1000)
    (v := s * ((arch n * arch n / 1000 : Nat) : Int))
    (by rw [htv]; exact signed_tdiv hs) (by decide)
  obtain ⟨e, he, hev⟩ := sub_of_fits (a := square) (b := y)
    (v := -s * ((arch n - arch n * arch n / 1000 : Nat) : Int))
    (by rw [hsquarev, hyv, Nat.cast_sub hsq]; ring) (fits_signed hneg (by omega))
  obtain ⟨f, hf, hfv⟩ := mul_of_fits (a := 225) (b := e)
    (v := -s * ((225 * (arch n - arch n * arch n / 1000) : Nat) : Int))
    (by rw [hev, Nat.cast_mul]; change 225 * _ = _; ring) (fits_signed hneg (by omega))
  obtain ⟨g, hg, hgv⟩ := div_of_pos (a := f) (b := 1000)
    (v := -s * ((225 * (arch n - arch n * arch n / 1000) / 1000 : Nat) : Int))
    (by rw [hfv]; exact signed_tdiv hneg) (by decide)
  obtain ⟨v, hv, hvv⟩ := add_of_fits (a := g) (b := y) (v := s * (wave n : Int))
    (by rw [hgv, hyv, wave, Nat.cast_sub hcorr]; ring)
    (fits_signed hs (Nat.lt_of_le_of_lt (wave_le hn) (by decide)))
  refine ⟨v, ?_, hvv⟩
  simp only [parabola, ok_bind, ha, hscaled, hq, hd, hp, hy, hb, ht, hsquare, he, hf, hg, hv]

end Checked

/-! ### Wrapping the angle -/

/-- The one number of `-3141 .. 3141` that differs from `x` by a multiple of 6283. -/
def angle (x : Word) : Int := x.toInt.bmod 6283

theorem angle_eq (h : -3141 ≤ x.toInt ∧ x.toInt ≤ 3141) : angle x = x.toInt :=
  Int.bmod_eq_of_le (by omega) (by omega)

theorem angle_bounds (x : Word) : -3141 ≤ angle x ∧ angle x ≤ 3141 := by
  have hlo := Int.le_bmod (x := x.toInt) (m := 6283) (by decide)
  have hhi := Int.bmod_lt (x := x.toInt) (m := 6283) (by decide)
  unfold angle
  omega

theorem angle_sub (h : y.toInt = x.toInt - 6283) : angle y = angle x := by
  rw [angle, angle, h]
  exact Int.sub_bmod_right _ _

theorem angle_add (h : y.toInt = x.toInt + 6283) : angle y = angle x := by
  rw [angle, angle, h]
  exact Int.add_bmod_right _ _

/-- The interval of the angles is symmetric: 6283 is odd. -/
theorem angle_neg (h : y.toInt = -x.toInt) : angle y = -angle x := by
  have hbounds := angle_bounds x
  have heq : angle y = (-angle x).bmod 6283 := by
    rw [angle, angle, h]
    exact Int.bmod_neg_bmod.symm
  rw [heq]
  exact Int.bmod_eq_of_le (by omega) (by omega)

namespace Checked

theorem wrapDown_of_lt (h : 3141 < x.toInt) :
    ∃ y, wrapDown x = .ok (.inl y) ∧ y.toInt = x.toInt - 6283 := by
  have hx := fits_toInt x
  obtain ⟨y, hy, hyv⟩ := sub_of_fits (a := x) (b := 6283) rfl
    (show Fits (x.toInt - 6283) from ⟨by omega, by have := hx.2; omega⟩)
  exact ⟨y, by rw [wrapDown, if_pos h, hy]; rfl, hyv⟩

theorem wrapUp_of_lt (h : x.toInt < -3141) :
    ∃ y, wrapUp x = .ok (.inl y) ∧ y.toInt = x.toInt + 6283 := by
  have hx := fits_toInt x
  obtain ⟨y, hy, hyv⟩ := add_of_fits (a := x) (b := 6283) rfl
    (show Fits (x.toInt + 6283) from ⟨by have := hx.1; omega, by omega⟩)
  exact ⟨y, by rw [wrapUp, if_pos h, hy]; rfl, hyv⟩

theorem wrapDown_shrinks : Shrinks wrapDown fun x => x.toInt.natAbs := by
  intro x y h
  by_cases hx : 3141 < x.toInt
  · obtain ⟨z, hz, hzv⟩ := wrapDown_of_lt hx
    obtain rfl := Sum.inl.inj (Except.ok.inj (hz.symm.trans h))
    dsimp only
    omega
  · rw [wrapDown, if_neg hx] at h
    cases h

theorem wrapUp_shrinks : Shrinks wrapUp fun x => x.toInt.natAbs := by
  intro x y h
  by_cases hx : x.toInt < -3141
  · obtain ⟨z, hz, hzv⟩ := wrapUp_of_lt hx
    obtain rfl := Sum.inl.inj (Except.ok.inj (hz.symm.trans h))
    dsimp only
    omega
  · rw [wrapUp, if_neg hx] at h
    cases h

theorem wrapDown_loop (x : Word) : ∃ y, loop wrapDown .fuel (fun x => x.toInt.natAbs) x = .ok y ∧
    y.toInt ≤ 3141 ∧ angle y = angle x := by
  induction hn : x.toInt.natAbs using Nat.strongRecOn generalizing x with
  | ind n ih =>
      by_cases hx : 3141 < x.toInt
      · obtain ⟨z, hz, hzv⟩ := wrapDown_of_lt hx
        obtain ⟨y, hy, hle, hyv⟩ := ih z.toInt.natAbs (by omega) z rfl
        exact ⟨y, (loop_turn wrapDown_shrinks hz).trans hy, hle, hyv.trans (angle_sub hzv)⟩
      · exact ⟨x, loop_leave (if_neg hx), by omega, rfl⟩

theorem wrapUp_loop (x : Word) (h : x.toInt ≤ 3141) :
    ∃ y, loop wrapUp .fuel (fun x => x.toInt.natAbs) x = .ok y ∧
      (-3141 ≤ y.toInt ∧ y.toInt ≤ 3141) ∧ angle y = angle x := by
  induction hn : x.toInt.natAbs using Nat.strongRecOn generalizing x with
  | ind n ih =>
      by_cases hx : x.toInt < -3141
      · obtain ⟨z, hz, hzv⟩ := wrapUp_of_lt hx
        obtain ⟨y, hy, hle, hyv⟩ := ih z.toInt.natAbs (by omega) z (by omega) rfl
        exact ⟨y, (loop_turn wrapUp_shrinks hz).trans hy, hle, hyv.trans (angle_add hzv)⟩
      · exact ⟨x, loop_leave (if_neg hx), ⟨by omega, h⟩, rfl⟩

/-- **The two loops leave the angle.** -/
theorem wrapped (x : Word) : ∃ y z, loop wrapDown .fuel (fun x => x.toInt.natAbs) x = .ok y ∧
    loop wrapUp .fuel (fun x => x.toInt.natAbs) y = .ok z ∧ z.toInt = angle x := by
  obtain ⟨y, hy, hle, hyv⟩ := wrapDown_loop x
  obtain ⟨z, hz, hbounds, hzv⟩ := wrapUp_loop y hle
  exact ⟨y, z, hy, hz, (angle_eq hbounds).symm.trans (hzv.trans hyv)⟩

end Checked

/-! ### The sine -/

/-- What `sinInt` makes of the angle `r`. -/
def sineOf (r : Int) : Int := if r < 0 then -wave r.natAbs else wave r.natAbs

theorem sineOf_neg (r : Int) : sineOf (-r) = -sineOf r := by
  rcases Int.lt_trichotomy r 0 with h | rfl | h
  · have hpos : ¬ -r < 0 := by omega
    rw [sineOf, sineOf, if_neg hpos, if_pos h, Int.natAbs_neg, Int.neg_neg]
  · decide
  · have hneg : -r < 0 := by omega
    rw [sineOf, sineOf, if_pos hneg, if_neg (Int.lt_asymm h), Int.natAbs_neg]

theorem sineOf_bounds (x : Word) : -1000 ≤ sineOf (angle x) ∧ sineOf (angle x) ≤ 1000 := by
  have hle : wave (angle x).natAbs ≤ 1000 := wave_le (by have := angle_bounds x; omega)
  unfold sineOf
  split <;> omega

/-- **No operation of `sinInt` overflows.** -/
theorem computes_sinInt (x : Word) :
    ∃ v, Checked.sinInt x = .ok v ∧ v.toInt = sineOf (angle x) := by
  obtain ⟨y, z, hy, hz, hzv⟩ := Checked.wrapped x
  have hbounds := angle_bounds x
  have hn : (angle x).natAbs ≤ 3141 := by omega
  have hsin : ∀ {s : Int}, IsSign s → angle x = s * (angle x).natAbs → sineOf (angle x) =
      s * wave (angle x).natAbs → ∃ v, Checked.sinInt x = .ok v ∧ v.toInt = sineOf (angle x) := by
    intro s hs hv hw
    obtain ⟨v, hp, hvv⟩ := Checked.parabola_signed hs (hzv.trans hv) hn
    refine ⟨v, ?_, hvv.trans hw.symm⟩
    rw [Checked.sinInt, hy, ok_bind, hz, ok_bind, hp]
  by_cases hneg : angle x < 0
  · exact hsin (.inr rfl) (by omega) (by rw [sineOf, if_pos hneg, Int.neg_one_mul])
  · exact hsin (.inl rfl) (by omega) (by rw [sineOf, if_neg hneg, Int.one_mul])

/-! ### In 32-bit words -/

namespace Checked

theorem wrapDown_eq_ok {q : Word ⊕ Word} (h : wrapDown x = .ok q) : Lisp.wrapDown x = .ok q := by
  unfold wrapDown at h
  split at h
  · next hx =>
      obtain ⟨y, hy, rfl⟩ := map_eq_ok.mp h
      obtain ⟨-, rfl⟩ := exact_eq_ok.mp hy
      rw [Lisp.wrapDown, if_pos hx]
  · next hx => rw [Lisp.wrapDown, if_neg hx, Except.ok.inj h]

theorem wrapUp_eq_ok {q : Word ⊕ Word} (h : wrapUp x = .ok q) : Lisp.wrapUp x = .ok q := by
  unfold wrapUp at h
  split at h
  · next hx =>
      obtain ⟨y, hy, rfl⟩ := map_eq_ok.mp h
      obtain ⟨-, rfl⟩ := exact_eq_ok.mp hy
      rw [Lisp.wrapUp, if_pos hx]
  · next hx => rw [Lisp.wrapUp, if_neg hx, Except.ok.inj h]

theorem absInt_eq_ok (h : absInt x = .ok y) : Lisp.absInt x = y := by
  unfold absInt at h
  split at h
  · next hx => rw [Lisp.absInt, if_pos hx, (exact_eq_ok.mp h).2]
  · next hx => rw [Lisp.absInt, if_neg hx, Except.ok.inj h]

end Checked

/-- Where nothing overflows, the arithmetic of words gives the same. -/
theorem sinInt_eq_of_checked (h : Checked.sinInt x = .ok w) : sinInt x = .ok w := by
  obtain ⟨y, hy, h⟩ := bind_eq_ok.mp h
  obtain ⟨z, hz, h⟩ := bind_eq_ok.mp h
  obtain ⟨a, ha, h⟩ := bind_eq_ok.mp h
  obtain ⟨scaled, hscaled, h⟩ := bind_eq_ok.mp h
  obtain ⟨q, hq, h⟩ := bind_eq_ok.mp h
  obtain ⟨d, hd, h⟩ := bind_eq_ok.mp h
  obtain ⟨p, hp, h⟩ := bind_eq_ok.mp h
  obtain ⟨t, ht, h⟩ := bind_eq_ok.mp h
  obtain ⟨b, hb, h⟩ := bind_eq_ok.mp h
  obtain ⟨r, hr, h⟩ := bind_eq_ok.mp h
  obtain ⟨square, hsquare, h⟩ := bind_eq_ok.mp h
  obtain ⟨e, he, h⟩ := bind_eq_ok.mp h
  obtain ⟨f, hf, h⟩ := bind_eq_ok.mp h
  obtain ⟨g, hg, h⟩ := bind_eq_ok.mp h
  rw [sinInt, loop_eq_ok_mono Checked.wrapDown_eq_ok hy, ok_bind,
    loop_eq_ok_mono Checked.wrapUp_eq_ok hz, ok_bind, Checked.absInt_eq_ok ha]
  obtain ⟨-, rfl⟩ := Checked.exact_eq_ok.mp hscaled
  obtain ⟨-, rfl⟩ := Checked.exact_eq_ok.mp hq
  obtain ⟨-, rfl⟩ := Checked.exact_eq_ok.mp hd
  obtain ⟨-, rfl⟩ := Checked.exact_eq_ok.mp hp
  obtain ⟨-, rfl⟩ := Checked.exact_eq_ok.mp ht
  obtain ⟨-, rfl⟩ := Checked.exact_eq_ok.mp hr
  obtain ⟨-, rfl⟩ := Checked.exact_eq_ok.mp hsquare
  obtain ⟨-, rfl⟩ := Checked.exact_eq_ok.mp he
  obtain ⟨-, rfl⟩ := Checked.exact_eq_ok.mp hf
  obtain ⟨-, rfl⟩ := Checked.exact_eq_ok.mp hg
  obtain ⟨-, rfl⟩ := Checked.exact_eq_ok.mp h
  dsimp only
  rw [Checked.absInt_eq_ok hb]

/-- The value of the sine as an integer. -/
theorem sinInt_toInt (x : Word) : (sinInt x).map BitVec.toInt = .ok (sineOf (angle x)) := by
  obtain ⟨v, hv, hvv⟩ := computes_sinInt x
  rw [sinInt_eq_of_checked hv, ← hvv]
  rfl

/-- **`sinInt` is odd, periodic and bounded**, and no operation of it overflows: the checked
computation comes to the same end. -/
theorem sinInt_laws (x : Word) :
    ∃ v : Int, (Checked.sinInt x).map BitVec.toInt = .ok v ∧
      (sinInt x).map BitVec.toInt = .ok v ∧ (-1000 ≤ v ∧ v ≤ 1000) ∧
      (∀ y : Word, y.toInt = -x.toInt → (sinInt y).map BitVec.toInt = .ok (-v)) ∧
      ∀ y : Word, y.toInt = x.toInt + 6283 → (sinInt y).map BitVec.toInt = .ok v := by
  obtain ⟨v, hv, hvv⟩ := computes_sinInt x
  refine ⟨sineOf (angle x), by rw [hv, ← hvv]; rfl, sinInt_toInt x, sineOf_bounds x, ?_, ?_⟩
  · intro y hy
    rw [sinInt_toInt y, angle_neg hy, sineOf_neg]
  · intro y hy
    rw [sinInt_toInt y, angle_add hy]

end Lisp

end RivOS
