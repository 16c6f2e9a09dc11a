import RivOS.Support.Except

/-!
# Support — What a computation may come to

`Gives E p x`: the computation `x` comes to a value with `p`, or stops for one of the reasons `E`.

* `Gives.bind`, `Gives.map`: sequences.
* `Gives.foldlM`: a loop over a list, with an invariant.
-/

namespace RivOS

universe u v

variable {ε : Type u} {α β : Type v} {E : ε → Prop} {p p' : α → Prop} {q : β → Prop}
  {x : Except ε α} {a : α}

def Gives (E : ε → Prop) (p : α → Prop) : Except ε α → Prop
  | .ok a => p a
  | .error e => E e

theorem Gives.mono (h : Gives E p x) (hp : ∀ a, p a → p' a) : Gives E p' x := by
  cases x with
  | ok a => exact hp a h
  | error e => exact h

theorem Gives.bind {f : α → Except ε β} (h : Gives E p x) (hf : ∀ a, p a → Gives E q (f a)) :
    Gives E q (x >>= f) := by
  cases x with
  | ok a => exact hf a h
  | error e => exact h

theorem Gives.map {f : α → β} (h : Gives E p x) (hf : ∀ a, p a → q (f a)) :
    Gives E q (x.map f) := by
  cases x with
  | ok a => exact hf a h
  | error e => exact h

/-- A part that comes to its end. -/
theorem gives_ok_bind {f : α → Except ε β} (hx : x = .ok a) (h : Gives E q (f a)) :
    Gives E q (x >>= f) := by
  rw [hx]
  exact h

theorem toOption_eq_some : x.toOption = some a ↔ x = .ok a := by
  cases x <;> simp [Except.toOption]

theorem gives_iff : Gives E p x ↔ (∃ a, x = .ok a ∧ p a) ∨ ∃ e, x = .error e ∧ E e := by
  cases x with
  | ok a => simp [Gives]
  | error e => simp [Gives]

theorem Gives.foldlM {σ : Type v} {f : σ → α → Except ε σ} {I : σ → Prop} {s : σ} {l : List α}
    (h : ∀ a ∈ l, ∀ s, I s → Gives E I (f s a)) (h₀ : I s) : Gives E I (l.foldlM f s) := by
  induction l generalizing s with
  | nil => exact h₀
  | cons a l ih =>
      rw [List.foldlM_cons]
      exact (h a List.mem_cons_self s h₀).bind fun t ht => ih (fun b hb => h b (.tail _ hb)) ht

end RivOS
