import Mathlib.Logic.Basic
import RivOS.Support.Except

/-!
# Support — Loops that use up their input

A `while` loop is given by one turn, which either hands over the state of the next turn or leaves
the loop.  `loop` runs the turn as often as a measure of the state allows; where every turn makes
the measure smaller that is always enough, and the loop is its own unrolling.

* `loop_eq`: the loop equation.
* `turns_inv`, `loop_inv`: what holds at the start and is kept by every turn holds where the loop is
  left.
* `states`, `Reaches`: the states in which turns begin, also of a loop that is never left or that
  stops with an error; `turns_ne_error` is about the errors of a loop.
-/

namespace RivOS

universe u v w

variable {ε : Type u} {σ ρ : Type v} {turn : σ → Except ε (σ ⊕ ρ)} {out : ε} {μ : σ → Nat}
  {s t : σ} {r : ρ} {n m : Nat}

/-- At most `n` turns from `s`. -/
def turns (turn : σ → Except ε (σ ⊕ ρ)) (out : ε) : Nat → σ → Except ε ρ
  | 0, _ => .error out
  | n + 1, s => turn s >>= Sum.elim (turns turn out n) .ok

def loop (turn : σ → Except ε (σ ⊕ ρ)) (out : ε) (μ : σ → Nat) (s : σ) : Except ε ρ :=
  turns turn out (μ s + 1) s

/-- Every turn makes the measure smaller. -/
def Shrinks (turn : σ → Except ε (σ ⊕ ρ)) (μ : σ → Nat) : Prop :=
  ∀ {s t}, turn s = .ok (.inl t) → μ t < μ s

/-- Above the measure the number of turns does not matter. -/
theorem turns_eq (h : Shrinks turn μ) (hn : μ s < n) (hm : μ s < m) :
    turns turn out n s = turns turn out m s := by
  induction n generalizing m s with
  | zero => omega
  | succ n ih =>
      obtain ⟨m, rfl⟩ : ∃ k, m = k + 1 := ⟨m - 1, by omega⟩
      rw [turns, turns]
      rcases hs : turn s with e | t | r
      · rfl
      · have := h hs
        exact ih (by omega) (by omega)
      · rfl

/-- **The loop equation.** -/
theorem loop_eq (h : Shrinks turn μ) :
    loop turn out μ s = turn s >>= Sum.elim (loop turn out μ) .ok := by
  rw [loop, turns]
  rcases hs : turn s with e | t | r
  · rfl
  · have := h hs
    exact turns_eq h (by omega) (by omega)
  · rfl

theorem loop_turn (h : Shrinks turn μ) (hs : turn s = .ok (.inl t)) :
    loop turn out μ s = loop turn out μ t := by
  rw [loop_eq h, hs]
  rfl

theorem loop_leave (hs : turn s = .ok (.inr r)) : loop turn out μ s = .ok r := by
  rw [loop, turns, hs]
  rfl

/-- The invariant rule. -/
theorem turns_inv {I : σ → Prop} {Q : ρ → Prop} (hturn : ∀ {s t}, I s → turn s = .ok (.inl t) → I t)
    (hleave : ∀ {s r}, I s → turn s = .ok (.inr r) → Q r) (h₀ : I s)
    (h : turns turn out n s = .ok r) : Q r := by
  induction n generalizing s with
  | zero => cases h
  | succ n ih =>
      obtain ⟨t | q, ht, h⟩ := bind_eq_ok.mp h
      · exact ih (hturn h₀ ht) h
      · cases h
        exact hleave h₀ ht

theorem loop_inv {I : σ → Prop} {Q : ρ → Prop} (hturn : ∀ {s t}, I s → turn s = .ok (.inl t) → I t)
    (hleave : ∀ {s r}, I s → turn s = .ok (.inr r) → Q r) (h₀ : I s)
    (h : loop turn out μ s = .ok r) : Q r :=
  turns_inv hturn hleave h₀ h

/-- A loop whose turns do at least what the turns of another do leaves where that one leaves. -/
theorem turns_eq_ok_mono {ε₂ : Type u} {turn₂ : σ → Except ε₂ (σ ⊕ ρ)} {out₂ : ε₂}
    (hturn : ∀ {s q}, turn s = .ok q → turn₂ s = .ok q) (h : turns turn out n s = .ok r) :
    turns turn₂ out₂ n s = .ok r := by
  induction n generalizing s with
  | zero => cases h
  | succ n ih =>
      obtain ⟨q, hq, h⟩ := bind_eq_ok.mp h
      rw [turns, hturn hq, ok_bind]
      rcases q with t | r
      · exact ih h
      · cases h
        rfl

theorem loop_eq_ok_mono {ε₂ : Type u} {turn₂ : σ → Except ε₂ (σ ⊕ ρ)} {out₂ : ε₂}
    (hturn : ∀ {s q}, turn s = .ok q → turn₂ s = .ok q) (h : loop turn out μ s = .ok r) :
    loop turn₂ out₂ μ s = .ok r :=
  turns_eq_ok_mono hturn h

/-! ### The states of a loop -/

/-- The states in which the first `n` turns from `s` on begin. -/
def states (turn : σ → Except ε (σ ⊕ ρ)) : Nat → σ → List σ
  | 0, _ => []
  | n + 1, s => s :: match turn s with
      | .ok (.inl t) => states turn n t
      | _ => []

/-- A turn begins in the state. -/
inductive Reaches (turn : σ → Except ε (σ ⊕ ρ)) (s : σ) : σ → Prop where
  | refl : Reaches turn s s
  | snoc {t u : σ} : Reaches turn s t → turn t = .ok (.inl u) → Reaches turn s u

variable {u : σ}

theorem Reaches.cons (ht : turn s = .ok (.inl t)) (h : Reaches turn t u) : Reaches turn s u := by
  induction h with
  | refl => exact .snoc .refl ht
  | snoc _ hu ih => exact ih.snoc hu

theorem reaches_of_mem_states (h : u ∈ states turn n s) : Reaches turn s u := by
  induction n generalizing s with
  | zero => cases h
  | succ n ih =>
      rcases List.mem_cons.mp h with rfl | h
      · exact .refl
      · split at h
        · next t ht => exact (ih h).cons ht
        · cases h

theorem mem_states_succ (h : t ∈ states turn n s) (hu : turn t = .ok (.inl u)) :
    u ∈ states turn (n + 1) s := by
  induction n generalizing s with
  | zero => cases h
  | succ n ih =>
      rcases List.mem_cons.mp h with rfl | h
      · simp [states, hu]
      · split at h
        · next v hv =>
            rw [states, hv]
            exact .tail _ (ih h)
        · cases h

theorem exists_mem_states_iff : (∃ n, u ∈ states turn n s) ↔ Reaches turn s u := by
  constructor
  · rintro ⟨n, h⟩
    exact reaches_of_mem_states h
  · intro h
    induction h with
    | refl => exact ⟨1, List.mem_cons_self⟩
    | snoc _ hu ih =>
        obtain ⟨n, hn⟩ := ih
        exact ⟨n + 1, mem_states_succ hn hu⟩

theorem Reaches.head (h : Reaches turn s u) :
    u = s ∨ ∃ t, turn s = .ok (.inl t) ∧ Reaches turn t u := by
  induction h with
  | refl => exact .inl rfl
  | snoc _ hu ih =>
      rcases ih with rfl | ⟨v, hv, hr⟩
      · exact .inr ⟨_, hu, .refl⟩
      · exact .inr ⟨v, hv, hr.snoc hu⟩

/-- A loop that is left has stopped in none of its turns. -/
theorem Reaches.turn_ok (hu : Reaches turn s u) (h : turns turn out n s = .ok r) :
    ∃ q, turn u = .ok q := by
  induction n generalizing s with
  | zero => cases h
  | succ n ih =>
      obtain ⟨q, hq, h⟩ := bind_eq_ok.mp h
      rcases hu.head with rfl | ⟨t, ht, hu⟩
      · exact ⟨q, hq⟩
      · obtain rfl := Except.ok.inj (hq.symm.trans ht)
        exact ih hu h

/-- A loop stops with an error only where a turn does. -/
theorem turns_ne_error {e : ε} (he : out ≠ e) (h : ∀ u, Reaches turn s u → turn u ≠ .error e) :
    turns turn out n s ≠ .error e := by
  induction n generalizing s with
  | zero => exact fun hout => he (Except.error.inj hout)
  | succ n ih =>
      refine bind_ne_error (h s .refl) fun q hq => ?_
      rcases q with t | r
      · exact ih fun u hu => h u (hu.cons hq)
      · nofun

/-- The measure is enough: `out` is not an error of the loop, if it is none of a turn that begins
where the invariant holds. -/
theorem loop_ne_out_inv {I : σ → Prop} (hs : Shrinks turn μ)
    (hI : ∀ {s t}, I s → turn s = .ok (.inl t) → I t) (h : ∀ s, I s → turn s ≠ .error out)
    (h₀ : I s) : loop turn out μ s ≠ .error out := by
  suffices h : ∀ n s, I s → μ s < n → turns turn out n s ≠ .error out from
    h _ s h₀ (Nat.lt_succ_self _)
  intro n
  induction n with
  | zero => exact fun s _ hn => absurd hn (Nat.not_lt_zero _)
  | succ n ih =>
      intro s hIs hn
      refine bind_ne_error (h s hIs) fun q hq => ?_
      rcases q with t | r
      · have hlt := hs hq
        exact ih t (hI hIs hq) (by omega)
      · nofun

theorem loop_ne_out (hs : Shrinks turn μ) (h : ∀ u, turn u ≠ .error out) :
    loop turn out μ s ≠ .error out :=
  loop_ne_out_inv (I := fun _ => True) hs (fun _ _ => trivial) (fun u _ => h u) trivial

end RivOS
