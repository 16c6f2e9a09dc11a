import Mathlib.Data.List.Basic

/-!
# Support — Cursors

A cursor into a buffer is what the buffer holds from there to its end; at the end there is nothing
left to read.  `scan` runs to the first element that meets a condition, `skip` steps over a number
of elements; neither leaves the buffer.
-/

namespace RivOS.Cursor

universe u

variable {α : Type u} {stop : α → Bool} {p q r w : List α} {c : α} {n : Nat}

/-- The elements before the first one that meets `stop`, and the cursor at that one. -/
def scan (stop : α → Bool) : List α → Option (List α × List α)
  | [] => none
  | a :: p => if stop a then some ([], a :: p) else (scan stop p).map fun r => (a :: r.1, r.2)

/-- The cursor `n` elements further on. -/
def skip (n : Nat) (p : List α) : Option (List α) := if n ≤ p.length then some (p.drop n) else none

theorem scan_append (hw : ∀ a ∈ w, stop a = false) (hc : stop c = true) :
    scan stop (w ++ c :: r) = some (w, c :: r) := by
  induction w with
  | nil => simp [scan, hc]
  | cons a w ih =>
      have ha : stop a = false := hw a (by simp)
      have := ih fun b hb => hw b (by simp [hb])
      simp [scan, ha, this]

/-- A scan splits what is left where it stops. -/
theorem scan_eq_some (h : scan stop p = some (w, q)) :
    p = w ++ q ∧ (∀ a ∈ w, stop a = false) ∧ ∃ c r, q = c :: r ∧ stop c = true := by
  induction p generalizing w with
  | nil => cases h
  | cons a p ih =>
      rw [scan] at h
      split at h
      · next ha =>
          cases h
          exact ⟨rfl, by simp, a, p, rfl, ha⟩
      · next ha =>
          obtain ⟨⟨w', q'⟩, h', e⟩ := Option.map_eq_some_iff.mp h
          cases e
          obtain ⟨rfl, hw, hq⟩ := ih h'
          exact ⟨rfl, List.forall_mem_cons.mpr ⟨by simpa using ha, hw⟩, hq⟩

/-- A scan that nothing stops leaves the buffer. -/
theorem scan_eq_none (h : ∀ a ∈ p, stop a = false) : scan stop p = none := by
  induction p with
  | nil => rfl
  | cons a p ih =>
      have ha : stop a = false := h a (by simp)
      have := ih fun b hb => h b (by simp [hb])
      simp [scan, ha, this]

theorem scan_length (h : scan stop p = some (w, q)) : p.length = w.length + q.length := by
  rw [(scan_eq_some h).1, List.length_append]

theorem skip_append (w r : List α) : skip w.length (w ++ r) = some r := by
  simp [skip]

theorem skip_one_cons (c : α) (r : List α) : skip 1 (c :: r) = some r := by
  simp [skip]

theorem skip_eq_some : skip n p = some q ↔ n ≤ p.length ∧ q = p.drop n := by
  rw [skip]
  split
  · next h => simp [h, eq_comm]
  · next h => simp [h]

theorem skip_skip {m : Nat} (h : skip n p = some q) (h' : skip m q = some r) :
    skip (n + m) p = some r := by
  obtain ⟨hn, rfl⟩ := skip_eq_some.mp h
  obtain ⟨hm, rfl⟩ := skip_eq_some.mp h'
  rw [List.length_drop] at hm
  exact skip_eq_some.mpr ⟨by omega, List.drop_drop⟩

theorem skip_length (h : skip n p = some q) : q.length + n = p.length := by
  obtain ⟨hn, rfl⟩ := skip_eq_some.mp h
  rw [List.length_drop]
  omega

end RivOS.Cursor
