import Mathlib.Logic.Basic

/-!
# Support — Computations that may stop

Sequences and loops in `Except`.

* `bind_eq_ok`: a sequence that comes to its end went through both parts.
* `foldlM_inv`, `foldlM_ok`: a loop over a list, with an invariant that speaks of the elements still
  to come; the second also shows that the loop comes to its end.
* `foldlM_map`: a loop and the one it refines.
-/

namespace RivOS

universe u v w

variable {ε : Type u} {α σ : Type v} {β : Type v} {f : σ → α → Except ε σ} {P : List α → σ → Prop}
  {l : List α} {s t : σ} {x : Except ε α} {b : β}

theorem ok_bind (a : α) (g : α → Except ε β) : (Except.ok a >>= g) = g a := rfl

theorem ok_ne_error {e : ε} : (Except.ok a : Except ε α) ≠ .error e := by
  intro h
  cases h

theorem bind_eq_ok {g : α → Except ε β} : (x >>= g) = .ok b ↔ ∃ a, x = .ok a ∧ g a = .ok b := by
  rcases x with e | a
  · refine ⟨fun h => ?_, fun ⟨_, h, _⟩ => ?_⟩ <;> cases h
  · exact ⟨fun h => ⟨a, rfl, h⟩, fun ⟨_, h, hg⟩ => by cases h; exact hg⟩

theorem bind_eq_error {e : ε} {g : α → Except ε β} :
    (x >>= g) = .error e ↔ x = .error e ∨ ∃ a, x = .ok a ∧ g a = .error e := by
  rcases x with e' | a
  · refine ⟨fun h => .inl ?_, ?_⟩
    · cases h
      rfl
    · rintro (h | ⟨a, ha, -⟩)
      · cases h
        rfl
      · cases ha
  · refine ⟨fun h => .inr ⟨a, rfl, h⟩, ?_⟩
    rintro (h | ⟨a, ha, h⟩)
    · cases h
    · cases ha
      exact h

theorem map_eq_ok {g : α → β} : x.map g = .ok b ↔ ∃ a, x = .ok a ∧ g a = b := by
  rcases x with e | a
  · refine ⟨fun h => ?_, fun ⟨_, h, _⟩ => ?_⟩ <;> cases h
  · exact ⟨fun h => ⟨a, rfl, Except.ok.inj h⟩, fun ⟨_, h, hg⟩ => by cases h; exact congrArg _ hg⟩

/-- What a computation that comes to its end leaves beside its result. -/
def leaves {γ : Type w} (c : γ) : Except ε (α × γ) → γ
  | .ok (_, c) => c
  | .error _ => c

theorem eq_ok_leaves {γ : Type w} {x : Except ε (α × γ)} {a : α} (c : γ)
    (h : x.map Prod.fst = .ok a) : x = .ok (a, leaves c x) := by
  rcases x with e | ⟨a', c'⟩ <;> cases h
  rfl

/-- A sequence stops with `e` only where one of its parts does. -/
theorem bind_ne_error {e : ε} {g : α → Except ε β} (hx : x ≠ .error e)
    (hg : ∀ a, x = .ok a → g a ≠ .error e) : (x >>= g) ≠ .error e := by
  rcases x with e' | a
  · intro h
    cases h
    exact hx rfl
  · exact hg a rfl

/-- A loop over a list stops with `e` only where a turn does. -/
theorem foldlM_ne_error {e : ε} {I : σ → Prop} (hI : ∀ {s a t}, a ∈ l → I s → f s a = .ok t → I t)
    (h : ∀ {s a}, a ∈ l → I s → f s a ≠ .error e) (h₀ : I s) : l.foldlM f s ≠ .error e := by
  induction l generalizing s with
  | nil => nofun
  | cons a l ih =>
      rw [List.foldlM_cons]
      exact bind_ne_error (h List.mem_cons_self h₀) fun t ht =>
        ih (fun ha => hI (.tail _ ha)) (fun ha => h (.tail _ ha)) (hI List.mem_cons_self h₀ ht)

theorem foldlM_inv (hstep : ∀ {a l s t}, P (a :: l) s → f s a = .ok t → P l t) (h₀ : P l s)
    (h : l.foldlM f s = .ok t) : P [] t := by
  induction l generalizing s with
  | nil => cases h; exact h₀
  | cons a l ih =>
      rw [List.foldlM_cons] at h
      obtain ⟨u, hu, h⟩ := bind_eq_ok.mp h
      exact ih (hstep h₀ hu) h

theorem foldlM_ok (hstep : ∀ {a l s}, P (a :: l) s → ∃ t, f s a = .ok t ∧ P l t) (h₀ : P l s) :
    ∃ t, l.foldlM f s = .ok t ∧ P [] t := by
  induction l generalizing s with
  | nil => exact ⟨s, rfl, h₀⟩
  | cons a l ih =>
      obtain ⟨u, hu, hP⟩ := hstep h₀
      obtain ⟨t, ht, hend⟩ := ih hP
      exact ⟨t, by rw [List.foldlM_cons]; exact bind_eq_ok.mpr ⟨u, hu, ht⟩, hend⟩

theorem forM_ok {γ : Type w} {g : γ → Except ε PUnit} {as : List γ}
    (h : ∀ c ∈ as, g c = .ok ⟨⟩) : as.forM g = .ok ⟨⟩ := by
  induction as with
  | nil => rfl
  | cons c as ih =>
      change (g c >>= fun _ => as.forM g) = _
      rw [h c List.mem_cons_self]
      exact ih fun d hd => h d (.tail c hd)

/-- A loop that does something in one turn only. -/
theorem forM_single {γ : Type w} {g : γ → Except ε PUnit} {a : γ} {as : List γ} (has : as.Nodup)
    (ha : a ∈ as) (h : ∀ c ∈ as, c ≠ a → g c = .ok ⟨⟩) : as.forM g = g a := by
  induction as with
  | nil => cases ha
  | cons c as ih =>
      obtain ⟨hc, has⟩ := List.nodup_cons.mp has
      change (g c >>= fun _ => as.forM g) = _
      rcases List.mem_cons.mp ha with rfl | ha
      · rw [forM_ok fun d hd => h d (.tail _ hd) fun he => hc (he ▸ hd)]
        rcases g a with e | _ <;> rfl
      · rw [h c List.mem_cons_self fun he => hc (he ▸ ha)]
        exact ih has ha fun d hd => h d (.tail c hd)

/-- A loop over states that stand for others is the loop over those. -/
theorem foldlM_map {τ : Type v} {g : σ → τ} {f' : τ → α → Except ε τ} {I : σ → Prop}
    (hI : ∀ {a s t}, I s → f s a = .ok t → I t)
    (hsim : ∀ {a s}, I s → (f s a).map g = f' (g s) a) (h₀ : I s) :
    (l.foldlM f s).map g = l.foldlM f' (g s) := by
  induction l generalizing s with
  | nil => rfl
  | cons a l ih =>
      have ha := hsim (a := a) h₀
      rw [List.foldlM_cons, List.foldlM_cons, ← ha]
      cases hs : f s a with
      | error e => rfl
      | ok t => exact ih (hI h₀ hs)

end RivOS
