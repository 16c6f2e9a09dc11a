import Mathlib.Order.Filter.AtTopBot.Basic
import Mathlib.Order.Filter.Finite
import RivOS.Support.Loops

/-!
# Support — Computations with a bound

A recursive program that is given a number of calls it may nest stops with an error of its own where
that number does not do.  `Below e x y` orders what such a computation can give: `x` has stopped
with `e`, or is already `y`.  Sequences and loops respect the order, so a program that is built from
its recursive calls by these does as well, and a bound that was enough stays enough.

* `Below.bind`, `Below.foldlM`, `Below.loop`: the parts of a program.
* `eventually_of_succ`, `eventually_mem`: from some bound on, with one call more, and for all of a
  list at once.
-/

namespace RivOS

universe u v w

variable {ε : Type u} {α σ ρ : Type v} {β : Type v} {e : ε} {x y z : Except ε α}

/-- `x` has come to the bound, which is the error `e`, or is `y`. -/
def Below (e : ε) (x y : Except ε α) : Prop := x = .error e ∨ x = y

theorem Below.refl (e : ε) (x : Except ε α) : Below e x x := .inr rfl

theorem Below.trans (h : Below e x y) (h' : Below e y z) : Below e x z := by
  rcases h with rfl | rfl
  · exact .inl rfl
  · exact h'

theorem Below.eq (h : Below e x y) (hx : x ≠ .error e) : x = y := h.resolve_left hx

theorem Below.bind {f g : α → Except ε β} (h : Below e x y) (hf : ∀ a, Below e (f a) (g a)) :
    Below e (x >>= f) (y >>= g) := by
  rcases h with rfl | rfl
  · exact .inl rfl
  · rcases x with e' | a
    · exact .refl e _
    · exact hf a

theorem Below.map (f : α → β) (h : Below e x y) : Below e (x.map f) (y.map f) := by
  rcases h with rfl | rfl
  · exact .inl rfl
  · exact .refl e _

theorem Below.foldlM {f g : σ → α → Except ε σ} (h : ∀ s a, Below e (f s a) (g s a)) (l : List α)
    (s : σ) : Below e (l.foldlM f s) (l.foldlM g s) := by
  induction l generalizing s with
  | nil => exact .refl e _
  | cons a l ih =>
      rw [List.foldlM_cons, List.foldlM_cons]
      exact (h s a).bind ih

theorem Below.turns {f g : σ → Except ε (σ ⊕ ρ)} {out : ε} (h : ∀ s, Below e (f s) (g s)) (n : Nat)
    (s : σ) : Below e (turns f out n s) (turns g out n s) := by
  induction n generalizing s with
  | zero => exact .refl e _
  | succ n ih =>
      refine (h s).bind fun q => ?_
      rcases q with t | r
      · exact ih t
      · exact .refl e _

theorem Below.loop {f g : σ → Except ε (σ ⊕ ρ)} {out : ε} {μ : σ → Nat}
    (h : ∀ s, Below e (f s) (g s)) (s : σ) : Below e (loop f out μ s) (loop g out μ s) :=
  .turns h _ s

/-- A chain of computations, each below the next. -/
theorem below_of_le {f : Nat → Except ε α} (h : ∀ n, Below e (f n) (f (n + 1))) {m n : Nat}
    (hmn : m ≤ n) : Below e (f m) (f n) := by
  induction hmn with
  | refl => exact .refl e _
  | step _ ih => exact ih.trans (h _)

/-- One call more. -/
theorem eventually_of_succ {P : Nat → Prop} (h : ∀ᶠ n in Filter.atTop, P (n + 1)) :
    ∀ᶠ n in Filter.atTop, P n := by
  obtain ⟨k, hk⟩ := Filter.eventually_atTop.mp h
  refine Filter.eventually_atTop.mpr ⟨k + 1, fun n hn => ?_⟩
  obtain ⟨m, rfl⟩ : ∃ m, n = m + 1 := ⟨n - 1, by omega⟩
  exact hk m (by omega)

/-- What holds of every element from some bound on holds of all of a list from some bound on. -/
theorem eventually_mem {γ : Type w} {l : List γ} {P : Nat → γ → Prop}
    (h : ∀ a ∈ l, ∀ᶠ n in Filter.atTop, P n a) : ∀ᶠ n in Filter.atTop, ∀ a ∈ l, P n a :=
  (Filter.eventually_all_finite (List.finite_toSet l)).mpr h

end RivOS
