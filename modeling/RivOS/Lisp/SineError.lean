import Mathlib.Analysis.Real.Pi.Bounds
import Mathlib.Analysis.SpecialFunctions.Trigonometric.Bounds
import RivOS.Lisp.Sine

/-!
# Lisp — How far the sine is off

`sinInt` against the real sine, in thousandths.  The parabola lacks the factor `4 / π`: it comes to
786 where the sine comes to 1000, and the correction takes some more.

Near 0 and near `π` the real sine lies between two polynomials, evaluated in millionths (`check`);
between them it is above `5 / 6`, where `sinInt` never comes.

* `close_iff`: for one angle, what the check says is so.
* `wave_near_iff`: the angles from 0 to 3141 at which the error is at most 60.
* `sinInt_near_iff`: the same for every `int`.
-/

namespace RivOS

namespace Lisp

/-- `n` is close enough to 0 or to `π`, in thousandths. -/
def Near (n : Nat) : Prop :=
  n ≤ 261 ∨ n = 263 ∨ (2873 ≤ n ∧ n ≤ 2874) ∨ (2876 ≤ n ∧ n ≤ 2877) ∨ 2879 ≤ n

instance : DecidablePred Near := fun n => by
  unfold Near
  infer_instance

/-! ### Polynomials in millionths -/

/-- `c` is below `1000 * (x - x ^ 3 / 6)`, at `x = u / 1000000`. -/
def IsBelow (c u : Int) : Prop :=
  c * (6 * 1000000 ^ 3) < 1000 * (6 * u * 1000000 ^ 2 - u ^ 3)

/-- `c` is not below `1000 * (x - x ^ 3 / 6 + x ^ 5 / 100)`, at `x = u / 1000000`. -/
def IsAbove (c u : Int) : Prop :=
  1000 * (300 * u * 1000000 ^ 4 - 50 * u ^ 3 * 1000000 ^ 2 + 3 * u ^ 5) ≤ c * (300 * 1000000 ^ 5)

instance (c u : Int) : Decidable (IsBelow c u) := Int.decLt _ _
instance (c u : Int) : Decidable (IsAbove c u) := Int.decLe _ _

variable {c u v : Int} {n : Nat} {S : ℝ}

theorem lt_sin (h : IsBelow c u) (hu : 0 ≤ u) : (c : ℝ) < 1000 * Real.sin (u / 1000000) := by
  have hu₀ : (0 : ℝ) ≤ u / 1000000 := by
    have : (0 : ℝ) ≤ u := by exact_mod_cast hu
    positivity
  have hsin := Real.sin_ge_sub_cube hu₀
  have hpoly : (c : ℝ) * (6 * 1000000 ^ 3) < 1000 * (6 * u * 1000000 ^ 2 - u ^ 3) := by
    exact_mod_cast h
  have hcube : ((u : ℝ) / 1000000) ^ 3 = u ^ 3 / 1000000 ^ 3 := div_pow _ _ _
  rw [hcube] at hsin
  linarith

theorem sin_le (h : IsAbove c u) (hu : 0 ≤ u) (hu₁ : u ≤ 1000000) :
    1000 * Real.sin (u / 1000000) ≤ c := by
  have hu₀ : (0 : ℝ) ≤ u := by exact_mod_cast hu
  have hle : (u : ℝ) ≤ 1000000 := by exact_mod_cast hu₁
  have habs : |(u : ℝ) / 1000000| = u / 1000000 := abs_of_nonneg (by positivity)
  have hsin := (abs_le.mp (Real.sin_bound (x := u / 1000000) (by rw [habs]; linarith))).2
  have hpoly : (1000 : ℝ) * (300 * u * 1000000 ^ 4 - 50 * u ^ 3 * 1000000 ^ 2 + 3 * u ^ 5) ≤
      c * (300 * 1000000 ^ 5) := by
    exact_mod_cast h
  rw [habs, div_pow, div_pow] at hsin
  linarith

/-! ### One angle -/

/-- The real sine of the angle `n` lies between those of `u` and `v` millionths. -/
def check (n : Nat) (u v : Int) : Bool :=
  if Near n then decide (IsBelow (wave n - 60) u) && decide (IsAbove (wave n + 60) v)
  else decide (IsBelow (wave n + 60) u)

/-- Whether `S` is at most 60 thousandths off. -/
theorem close_iff (h : check n u v = true) (hu : 0 ≤ u) (hv : 0 ≤ v) (hv₁ : v ≤ 1000000)
    (hlo : Real.sin (u / 1000000) ≤ S) (hhi : S ≤ Real.sin (v / 1000000)) :
    |(wave n : ℝ) - 1000 * S| ≤ 60 ↔ Near n := by
  unfold check at h
  split at h
  · next hnear =>
      rw [Bool.and_eq_true, decide_eq_true_eq, decide_eq_true_eq] at h
      have hbelow := lt_sin h.1 hu
      have habove := sin_le h.2 hv hv₁
      push_cast at hbelow habove
      exact iff_of_true (abs_le.mpr ⟨by linarith, by linarith⟩) hnear
  · next hfar =>
      have hbelow := lt_sin (decide_eq_true_eq.mp h) hu
      push_cast at hbelow
      refine iff_of_false (fun habs => ?_) hfar
      linarith [(abs_le.mp habs).1]

/-! ### Every angle -/

/-- The angles below 1 radian. -/
theorem check_low : (List.range 1000).all (fun n => check n (1000 * n) (1000 * n)) = true := by
  decide +kernel

/-- The angles less than 1 radian below `π`. -/
theorem check_high : (List.range 1000).all (fun k =>
    check (2142 + k) (3141592 - 1000 * (2142 + k : Nat))
      (3141593 - 1000 * (2142 + k : Nat))) = true := by
  decide +kernel

/-- Between them `sinInt` keeps away from `1000 * sin 1`. -/
theorem wave_middle : (List.range 1142).all (fun k => wave (1000 + k) ≤ 770) = true := by
  decide +kernel

theorem near_iff_low (h : n < 1000) :
    |(wave n : ℝ) - 1000 * Real.sin (n / 1000)| ≤ 60 ↔ Near n := by
  have hcheck := List.all_eq_true.mp check_low n (List.mem_range.mpr h)
  have hu : (((1000 * n : Int) : ℝ)) / 1000000 = n / 1000 := by
    push_cast
    ring
  exact close_iff hcheck (by omega) (by omega) (by omega) (by rw [hu]) (by rw [hu])

theorem near_iff_high (h : 2142 ≤ n) (hn : n ≤ 3141) :
    |(wave n : ℝ) - 1000 * Real.sin (n / 1000)| ≤ 60 ↔ Near n := by
  obtain ⟨k, rfl⟩ := Nat.exists_eq_add_of_le h
  have hcheck := List.all_eq_true.mp check_high k (List.mem_range.mpr (by omega))
  generalize 2142 + k = n at *
  have hlo := Real.pi_gt_d6
  have hhi := Real.pi_lt_d6
  have hn₁ : (n : ℝ) ≤ 3141 := by exact_mod_cast hn
  have hn₂ : (2142 : ℝ) ≤ n := by exact_mod_cast h
  rw [← Real.sin_pi_sub]
  refine close_iff hcheck (by omega) (by omega) (by omega) ?_ ?_
  · push_cast
    exact Real.sin_le_sin_of_le_of_le_pi_div_two (by linarith) (by linarith) (by linarith)
  · push_cast
    exact Real.sin_le_sin_of_le_of_le_pi_div_two (by linarith) (by linarith) (by linarith)

/-- From 1 radian to 1 radian below `π` the sine is above `5 / 6`. -/
theorem sin_middle (h : 1000 ≤ n) (hn : n < 2142) : 5 / 6 ≤ Real.sin (n / 1000) := by
  have hpi := Real.pi_gt_d6
  have hn₁ : (1000 : ℝ) ≤ n := by exact_mod_cast h
  have hn₂ : (n : ℝ) ≤ 2141 := by exact_mod_cast Nat.le_of_lt_succ hn
  have hone : (5 / 6 : ℝ) ≤ Real.sin 1 := by
    have hcube := Real.sin_ge_sub_cube (x := 1) zero_le_one
    linarith
  refine hone.trans ?_
  rcases le_total ((n : ℝ) / 1000) (Real.pi / 2) with hle | hle
  · exact Real.sin_le_sin_of_le_of_le_pi_div_two (by linarith) hle (by linarith)
  · rw [← Real.sin_pi_sub (n / 1000)]
    exact Real.sin_le_sin_of_le_of_le_pi_div_two (by linarith) (by linarith) (by linarith)

theorem near_iff_middle (h : 1000 ≤ n) (hn : n < 2142) :
    |(wave n : ℝ) - 1000 * Real.sin (n / 1000)| ≤ 60 ↔ Near n := by
  obtain ⟨k, hk⟩ := Nat.exists_eq_add_of_le h
  have hwave := List.all_eq_true.mp wave_middle k (List.mem_range.mpr (by omega))
  rw [← hk, decide_eq_true_eq] at hwave
  have hle : (wave n : ℝ) ≤ 770 := by exact_mod_cast hwave
  have hsin := sin_middle h hn
  refine iff_of_false (fun habs => ?_) ?_
  · linarith [(abs_le.mp habs).1]
  · unfold Near
    omega

/-- **The error is at most 60 thousandths** near 0 and near `π` only. -/
theorem wave_near_iff (hn : n ≤ 3141) :
    |(wave n : ℝ) - 1000 * Real.sin (n / 1000)| ≤ 60 ↔ Near n := by
  rcases Nat.lt_or_ge n 1000 with h | h
  · exact near_iff_low h
  rcases Nat.lt_or_ge n 2142 with h₁ | h₁
  · exact near_iff_middle h h₁
  · exact near_iff_high h₁ hn

/-- `sinInt` and the sine are both odd. -/
theorem sineOf_near_iff {r : Int} (hr : -3141 ≤ r ∧ r ≤ 3141) :
    |(sineOf r : ℝ) - 1000 * Real.sin (r / 1000)| ≤ 60 ↔ Near r.natAbs := by
  have hiff := wave_near_iff (n := r.natAbs) (by omega)
  rw [Nat.cast_natAbs, Int.cast_abs] at hiff
  rw [← hiff, sineOf]
  split
  · next hneg =>
      have hcast : (r : ℝ) < 0 := by exact_mod_cast hneg
      rw [abs_of_neg hcast, neg_div, Real.sin_neg, ← abs_neg]
      push_cast
      ring_nf
  · next hpos =>
      have hcast : (0 : ℝ) ≤ r := by exact_mod_cast not_lt.mp hpos
      rw [abs_of_nonneg hcast]
      push_cast
      rfl

/-- **`sinInt` approximates the sine** exactly for the angles near 0 and near `π`. -/
theorem sinInt_near_iff (x : Word) :
    (∃ v : Int, (sinInt x).map BitVec.toInt = .ok v ∧
      |(v : ℝ) - 1000 * Real.sin (angle x / 1000)| ≤ 60) ↔ Near (angle x).natAbs := by
  rw [← sineOf_near_iff (angle_bounds x), sinInt_toInt]
  constructor
  · rintro ⟨v, hv, h⟩
    rwa [Except.ok.inj hv]
  · exact fun h => ⟨_, rfl, h⟩

/-- A quarter turn: 748 thousandths. -/
theorem sinInt_quarter :
    ¬ ∀ x : Word, ∃ v : Int, (sinInt x).map BitVec.toInt = .ok v ∧
      |(v : ℝ) - 1000 * Real.sin (angle x / 1000)| ≤ 60 := by
  intro h
  obtain ⟨v, hv, habs⟩ := h 1570
  rw [sinInt_toInt] at hv
  obtain rfl := Except.ok.inj hv
  exact absurd ((sineOf_near_iff (angle_bounds 1570)).mp habs) (by decide)

end Lisp

end RivOS
