import Mathlib.Data.List.Induction

/-!
# Support — Runs

Finite runs of a labelled transition system.  A run is read from its start state; the events
grow at the end, so that a property of the history so far is an induction on the run.

* `Run.inv`: a property that holds at the start and is kept by every step holds at the end.
* `Run.invHist`: the same for a property of the history together with the state.
* `Run.append`, `Run.split`: two runs one after the other are one.
* `Run.sim`: a system that can follow every step of another has its histories.
* `Guarded`: the system whose steps are those that meet a condition on the state before.
* `Logged`: the system that keeps its history, for conditions on that.
* `Along`: a history whose events each meet a condition on the events before.
-/

namespace RivOS

universe u v

variable {σ : Type u} {ε : Type v} {step : σ → ε → σ → Prop} {s t : σ} {es : List ε}

/-- `Run step s es t`: the events `es` lead from `s` to `t`. -/
inductive Run (step : σ → ε → σ → Prop) (s : σ) : List ε → σ → Prop where
  | nil : Run step s [] s
  | snoc {es : List ε} {t u : σ} {e : ε} (r : Run step s es t) (h : step t e u) :
      Run step s (es ++ [e]) u

/-- The steps of `step` that meet the condition `G` on the state before. -/
def Guarded (G : σ → ε → Prop) (step : σ → ε → σ → Prop) : σ → ε → σ → Prop :=
  fun s e t => G s e ∧ step s e t

/-- The system that keeps its history. -/
def Logged (step : σ → ε → σ → Prop) : List ε × σ → ε → List ε × σ → Prop :=
  fun s e t => t.1 = s.1 ++ [e] ∧ step s.2 e t.2

/-- Every event of `es` meets `P` on the events before it. -/
def Along (P : List ε → ε → Prop) (es : List ε) : Prop :=
  ∀ pre e post, es = pre ++ e :: post → P pre e

theorem along_nil (P : List ε → ε → Prop) : Along P [] := fun pre _ _ h => by cases pre <;> cases h

theorem along_concat_iff {P : List ε → ε → Prop} (es : List ε) (e : ε) :
    Along P (es ++ [e]) ↔ Along P es ∧ P es e := by
  constructor
  · intro h
    refine ⟨?_, h es e [] rfl⟩
    rintro pre e' post rfl
    exact h pre e' (post ++ [e]) (by simp)
  · rintro ⟨h, hlast⟩ pre e' post heq
    rcases List.eq_nil_or_concat post with rfl | ⟨post', e'', rfl⟩
    · obtain ⟨rfl, he⟩ := List.append_inj' heq rfl
      exact (List.cons.inj he).1 ▸ hlast
    · rw [List.concat_eq_append, ← List.cons_append, ← List.append_assoc] at heq
      exact h pre e' post' (List.append_inj' heq rfl).1

/-- A property of the history and the state that every step extends. -/
theorem Run.invHist {I : List ε → σ → Prop} (h₀ : I [] s)
    (hs : ∀ {es t e u}, Run step s es t → I es t → step t e u → I (es ++ [e]) u)
    (r : Run step s es t) : I es t := by
  induction r with
  | nil => exact h₀
  | snoc r h ih => exact hs r ih h

/-- An invariant of the steps is an invariant of the runs. -/
theorem Run.inv {I : σ → Prop} (h₀ : I s) (hs : ∀ {t e u}, I t → step t e u → I u)
    (r : Run step s es t) : I t :=
  r.invHist (I := fun _ => I) h₀ fun _ hi h => hs hi h

/-- Step by step, related states stay related. -/
theorem Run.sim {σ' : Type*} {step' : σ' → ε → σ' → Prop} {R : σ → σ' → Prop} {s' : σ'}
    (h₀ : R s s')
    (hs : ∀ {t t' e u}, R t t' → step t e u → ∃ u', step' t' e u' ∧ R u u')
    (r : Run step s es t) : ∃ t', Run step' s' es t' ∧ R t t' := by
  induction r with
  | nil => exact ⟨s', .nil, h₀⟩
  | snoc _ h ih =>
      obtain ⟨t', r', hr⟩ := ih
      obtain ⟨u', h', hr'⟩ := hs hr h
      exact ⟨u', r'.snoc h', hr'⟩

theorem Run.append {es' : List ε} {u : σ} (r : Run step s es t) (r' : Run step t es' u) :
    Run step s (es ++ es') u := by
  induction r' with
  | nil => rwa [List.append_nil]
  | snoc _ h ih =>
      rw [← List.append_assoc]
      exact ih.snoc h

/-- The state after the first of two parts of a run. -/
theorem Run.split {es' : List ε} (r : Run step s (es ++ es') t) :
    ∃ u, Run step s es u ∧ Run step u es' t := by
  induction es' using List.reverseRecOn generalizing t with
  | nil =>
      rw [List.append_nil] at r
      exact ⟨t, r, .nil⟩
  | append_singleton es' e ih =>
      rw [← List.append_assoc] at r
      generalize hes : es ++ es' ++ [e] = fs at r
      cases r with
      | nil => simp at hes
      | snoc r h =>
          obtain ⟨rfl, he⟩ := List.append_inj' hes rfl
          obtain ⟨u, r₁, r₂⟩ := ih r
          exact ⟨u, r₁, r₂.snoc ((List.cons.inj he).1 ▸ h)⟩

theorem Run.single {e : ε} (h : step s e t) : Run step s [e] t := Run.nil.snoc h

theorem Run.mono {step' : σ → ε → σ → Prop} (hs : ∀ {t e u}, step t e u → step' t e u)
    (r : Run step s es t) : Run step' s es t := by
  induction r with
  | nil => exact .nil
  | snoc _ h ih => exact .snoc ih (hs h)

end RivOS
