import Mathlib.Data.List.Induction

/-!
# Support — The last maximum of a list

A scan that keeps a candidate and replaces it by every later element whose rank is at least the
candidate's.  Over the elements that satisfy `p`, it ends with the last of those of greatest
rank (`lastMax_isLastMax`), and that position is unique (`IsLastMax.unique`).
-/

namespace RivOS

universe u

variable {α : Type u} {p : α → Bool} {rank : α → Nat} {l : List α} {a : α} {i j : Nat}

/-- The candidate after one more element. -/
def lastMaxStep (p : α → Bool) (rank : α → Nat) (best : Option α) (a : α) : Option α :=
  if p a && best.all fun b => rank b ≤ rank a then some a else best

def lastMax (p : α → Bool) (rank : α → Nat) (l : List α) : Option α :=
  l.foldl (lastMaxStep p rank) none

/-- Position `i` holds an element that satisfies `p`; every other one has a smaller rank, or the
same rank and an earlier position. -/
def IsLastMax (p : α → Bool) (rank : α → Nat) (l : List α) (i : Nat) (a : α) : Prop :=
  l[i]? = some a ∧ p a = true ∧
    ∀ j b, l[j]? = some b → p b = true → rank b < rank a ∨ (rank b = rank a ∧ j ≤ i)

theorem IsLastMax.unique {b : α} (hi : IsLastMax p rank l i a) (hj : IsLastMax p rank l j b) :
    i = j := by
  have h₁ := hi.2.2 j b hj.1 hj.2.1
  have h₂ := hj.2.2 i a hi.1 hi.2.1
  omega

theorem lastMax_concat (l : List α) (a : α) :
    lastMax p rank (l ++ [a]) = lastMaxStep p rank (lastMax p rank l) a := by
  simp [lastMax]

/-- The scan finds nothing exactly when nothing satisfies `p`, and else the last maximum. -/
theorem lastMax_spec (p : α → Bool) (rank : α → Nat) (l : List α) :
    (lastMax p rank l = none ∧ ∀ a ∈ l, p a = false) ∨
      ∃ i a, lastMax p rank l = some a ∧ IsLastMax p rank l i a := by
  induction l using List.reverseRecOn with
  | nil => exact .inl ⟨rfl, by simp⟩
  | append_singleton l a ih =>
      rw [lastMax_concat]
      have get_old : ∀ {j b}, (l ++ [a])[j]? = some b → j < l.length → l[j]? = some b :=
        fun h hj => by rwa [List.getElem?_append_left hj] at h
      have get_new : ∀ {j b}, (l ++ [a])[j]? = some b → ¬ j < l.length → j = l.length ∧ b = a := by
        intro j b h hj
        rw [List.getElem?_append_right (by omega), List.getElem?_singleton] at h
        split at h
        · exact ⟨by omega, (Option.some.inj h).symm⟩
        · cases h
      by_cases hp : p a = true
      · rcases ih with ⟨hn, hl⟩ | ⟨i, b, hb, hi, hpb, hmax⟩
        · -- the first element that satisfies `p`
          refine .inr ⟨l.length, a, by simp [lastMaxStep, hn, hp], by simp, hp, fun j c hc hpc => ?_⟩
          by_cases hj : j < l.length
          · have := hl c (List.mem_of_getElem? (get_old hc hj))
            rw [hpc] at this; cases this
          · obtain ⟨rfl, rfl⟩ := get_new hc hj
            exact .inr ⟨rfl, Nat.le_refl _⟩
        · by_cases hr : rank b ≤ rank a
          · refine .inr ⟨l.length, a, by simp [lastMaxStep, hb, hp, hr], by simp, hp,
              fun j c hc hpc => ?_⟩
            by_cases hj : j < l.length
            · have := hmax j c (get_old hc hj) hpc
              omega
            · obtain ⟨rfl, rfl⟩ := get_new hc hj
              exact .inr ⟨rfl, Nat.le_refl _⟩
          · have hil : i < l.length := (List.getElem?_eq_some_iff.mp hi).1
            refine .inr ⟨i, b, by simp [lastMaxStep, hb, hr],
              by rwa [List.getElem?_append_left hil], hpb, fun j c hc hpc => ?_⟩
            by_cases hj : j < l.length
            · exact hmax j c (get_old hc hj) hpc
            · obtain ⟨rfl, rfl⟩ := get_new hc hj
              exact .inl (by omega)
      · have hstep : ∀ best, lastMaxStep p rank best a = best := by simp [lastMaxStep, hp]
        rw [hstep]
        rcases ih with ⟨hn, hl⟩ | ⟨i, b, hb, hi, hpb, hmax⟩
        · refine .inl ⟨hn, fun b hb => ?_⟩
          rcases List.mem_append.mp hb with hb | hb
          · exact hl b hb
          · rw [List.mem_singleton.mp hb]; simpa using hp
        · have hil : i < l.length := (List.getElem?_eq_some_iff.mp hi).1
          refine .inr ⟨i, b, hb, by rwa [List.getElem?_append_left hil], hpb,
            fun j c hc hpc => ?_⟩
          by_cases hj : j < l.length
          · exact hmax j c (get_old hc hj) hpc
          · obtain ⟨-, rfl⟩ := get_new hc hj
            exact absurd hpc hp

theorem lastMax_isLastMax (h : lastMax p rank l = some a) : ∃ i, IsLastMax p rank l i a := by
  rcases lastMax_spec p rank l with ⟨hn, -⟩ | ⟨i, b, hb, hi⟩
  · rw [hn] at h; cases h
  · rw [hb] at h; cases h; exact ⟨i, hi⟩

theorem exists_lastMax (rank : α → Nat) (ha : a ∈ l) (hp : p a = true) :
    ∃ i b, lastMax p rank l = some b ∧ IsLastMax p rank l i b := by
  rcases lastMax_spec p rank l with ⟨-, hl⟩ | h
  · have := hl a ha
    rw [hp] at this; cases this
  · exact h

end RivOS
