import Mathlib.Logic.Function.Basic
import Mathlib.Data.List.Basic
import RivOS.Support.Runs

/-!
# Support — Exclusive ownership

Resources `κ` that agents `π` claim and give back.  The machine keeps, for every resource, the
agent that has it (`owner`); a claim is a step only on a resource nobody has, a release only by
the agent that has it.

`Holds es k p` reads possession off the history alone: `p` claimed `k` and has not released it
since.  Over every run the two agree (`holds_iff_owner`), so a resource never has two holders
(`holds_unique`).
-/

namespace RivOS.Ownership

universe u v

variable {κ : Type u} {π : Type v}

/-- What happens to the ownership of a resource. -/
inductive Event (κ : Type u) (π : Type v) where
  | claimed (k : κ) (p : π)
  | released (k : κ) (p : π)

/-- `p` claimed `k` in `es` and has not released it since. -/
def Holds (es : List (Event κ π)) (k : κ) (p : π) : Prop :=
  ∃ pre post, es = pre ++ .claimed k p :: post ∧ .released k p ∉ post

theorem not_holds_nil (k : κ) (p : π) : ¬ Holds [] k p := by
  rintro ⟨pre, post, h, -⟩
  simp at h

/-- The last event decides, or it does not concern `p` at `k`. -/
theorem holds_concat_iff {es : List (Event κ π)} {e : Event κ π} {k : κ} {p : π} :
    Holds (es ++ [e]) k p ↔ e = .claimed k p ∨ (Holds es k p ∧ e ≠ .released k p) := by
  constructor
  · rintro ⟨pre, post, h, hn⟩
    rcases List.eq_nil_or_concat post with rfl | ⟨post', e', rfl⟩
    · obtain ⟨-, h⟩ := List.append_inj' h rfl
      exact .inl (List.cons.inj h).1
    · rw [List.concat_eq_append, ← List.cons_append, ← List.append_assoc] at h
      obtain ⟨rfl, he⟩ := List.append_inj' h rfl
      obtain rfl : e = e' := (List.cons.inj he).1
      simp only [List.concat_eq_append, List.mem_append, List.mem_singleton, not_or] at hn
      exact .inr ⟨⟨pre, post', rfl, hn.1⟩, fun h => hn.2 h.symm⟩
  · rintro (rfl | ⟨⟨pre, post, rfl, hn⟩, he⟩)
    · exact ⟨es, [], rfl, by simp⟩
    · refine ⟨pre, post ++ [e], by simp, ?_⟩
      simp only [List.mem_append, List.mem_singleton, not_or]
      exact ⟨hn, fun h => he h.symm⟩

section FilterMap

variable {ε : Type v} {f : ε → Option (Event κ π)} {es : List ε} {e : ε} {o : Event κ π} {k : κ}
  {p : π}

/-- The history of the events that concern the resources. -/
theorem holds_filterMap_concat (h : f e = some o) :
    Holds ((es ++ [e]).filterMap f) k p ↔
      o = .claimed k p ∨ (Holds (es.filterMap f) k p ∧ o ≠ .released k p) := by
  rw [List.filterMap_append, List.filterMap_cons_some h, List.filterMap_nil, holds_concat_iff]

theorem holds_filterMap_concat_none (h : f e = none) :
    Holds ((es ++ [e]).filterMap f) k p ↔ Holds (es.filterMap f) k p := by
  rw [List.filterMap_append, List.filterMap_cons_none h, List.filterMap_nil, List.append_nil]

end FilterMap

variable [DecidableEq κ]

/-- A claim takes a free resource, a release gives back an owned one. -/
inductive Step (owner : κ → Option π) : Event κ π → (κ → Option π) → Prop where
  | claim {k : κ} {p : π} (h : owner k = none) :
      Step owner (.claimed k p) (Function.update owner k (some p))
  | release {k : κ} {p : π} (h : owner k = some p) :
      Step owner (.released k p) (Function.update owner k none)

/-- **Possession is what the history says.** -/
theorem holds_iff_owner {es : List (Event κ π)} {owner : κ → Option π}
    (r : Run Step (fun _ => none) es owner) (k : κ) (p : π) :
    Holds es k p ↔ owner k = some p := by
  refine r.invHist (I := fun es owner => ∀ k p, Holds es k p ↔ owner k = some p)
    (fun k p => by simp [not_holds_nil]) (fun _ ih h k p => ?_) k p
  rw [holds_concat_iff, ih]
  cases h with
  | @claim k' p' h =>
      by_cases e : k = k'
      · subst e; simp [h, eq_comm]
      · simp [Function.update_of_ne e, Ne.symm e]
  | @release k' p' h =>
      by_cases e : k = k'
      · subst e; simp [h, eq_comm]
      · simp [Function.update_of_ne e, Ne.symm e]

/-- A resource has at most one holder. -/
theorem holds_unique {es : List (Event κ π)} {owner : κ → Option π}
    (r : Run Step (fun _ => none) es owner) {k : κ} {p q : π} (hp : Holds es k p)
    (hq : Holds es k q) : p = q := by
  rw [holds_iff_owner r] at hp hq
  exact Option.some.inj (hp.symm.trans hq)

end RivOS.Ownership
