import Mathlib.Algebra.Group.Nat.Defs
import Mathlib.Data.List.Nodup

/-!
# Support — Association vectors

An unsorted vector of key–value pairs: lookup and removal act on the first pair of a key,
insertion appends.  Where no key occurs twice it is a finite map: `find_concat` and `find_erase`
say what the operations do to the binding of every key, and `nodup_concat` and `nodup_erase` that
they keep the keys distinct.
-/

namespace RivOS.AssocVec

universe u v w

variable {κ : Type u} {ν : Type v} [DecidableEq κ] {es : List (κ × ν)} {k k' : κ} {x : ν}

/-- The value of the first pair of `k`. -/
def find (es : List (κ × ν)) (k : κ) : Option ν := (es.find? fun e => e.1 = k).map Prod.snd

/-- The vector without the first pair of `k`. -/
def erase (es : List (κ × ν)) (k : κ) : List (κ × ν) := es.eraseP fun e => e.1 = k

def keys (es : List (κ × ν)) : List κ := es.map Prod.fst

theorem find_eq_none_iff : find es k = none ↔ k ∉ keys es := by
  simp only [find, Option.map_eq_none_iff, List.find?_eq_none, decide_eq_true_eq, keys,
    List.mem_map, not_exists, not_and]

theorem mem_keys_of_find (h : find es k = some x) : k ∈ keys es := by
  by_contra hn
  rw [find_eq_none_iff.mpr hn] at h
  cases h

theorem find_concat (h : k ∉ keys es) :
    find (es ++ [(k, x)]) k' = if k' = k then some x else find es k' := by
  by_cases e : k' = k
  · subst e
    have hn : es.find? (fun e => e.1 = k') = none := by
      simpa [find] using find_eq_none_iff.mpr h
    simp [find, List.find?_append, hn]
  · simp [find, List.find?_append, e, Ne.symm e]

omit [DecidableEq κ] in
theorem nodup_concat (hd : (keys es).Nodup) (h : k ∉ keys es) :
    (keys (es ++ [(k, x)])).Nodup := by
  rw [keys, List.map_append]
  exact hd.append (List.nodup_singleton k) (by simpa [keys] using h)

theorem keys_erase (es : List (κ × ν)) (k : κ) : keys (erase es k) = (keys es).erase k := by
  induction es with
  | nil => rfl
  | cons e es ih =>
      by_cases h : e.1 = k
      · simp [keys, erase, h]
      · simp only [keys, erase] at ih
        simp [keys, erase, h, ih]

theorem erase_of_not_mem (h : k ∉ keys es) : erase es k = es := by
  refine List.eraseP_of_forall_not fun e he hk => h ?_
  exact List.mem_map.mpr ⟨e, he, of_decide_eq_true hk⟩

theorem nodup_erase (hd : (keys es).Nodup) : (keys (erase es k)).Nodup := by
  rw [keys_erase]; exact hd.erase k

/-- The pair that is found is the one that is removed. -/
theorem split_of_find (h : find es k = some x) :
    ∃ pre post, es = pre ++ (k, x) :: post ∧ erase es k = pre ++ post := by
  induction es with
  | nil => cases h
  | cons e es ih =>
      by_cases he : e.1 = k
      · rw [find, List.find?_cons_of_pos (by simpa using he)] at h
        have hx : e.2 = x := Option.some.inj h
        subst he
        subst hx
        exact ⟨[], es, rfl, List.eraseP_cons_of_pos (by simp)⟩
      · rw [find, List.find?_cons_of_neg (by simpa using he)] at h
        obtain ⟨pre, post, rfl, herase⟩ := ih h
        refine ⟨e :: pre, post, rfl, ?_⟩
        rw [erase, List.eraseP_cons_of_neg (by simpa using he), ← erase, herase, List.cons_append]

/-- Removal leaves the other keys alone. -/
theorem find_erase_of_ne (e : k' ≠ k) : find (erase es k) k' = find es k' := by
  induction es with
  | nil => rfl
  | cons a es ih =>
      simp only [find, erase] at ih ⊢
      by_cases ha : a.1 = k
      · simp [ha, Ne.symm e]
      · rw [List.eraseP_cons_of_neg (by simpa using ha)]
        by_cases ha' : a.1 = k'
        · simp [ha']
        · simpa [ha'] using ih

theorem find_erase (hd : (keys es).Nodup) :
    find (erase es k) k' = if k' = k then none else find es k' := by
  by_cases e : k' = k
  · subst e
    rw [if_pos rfl, find_eq_none_iff, keys_erase]
    exact fun h => (hd.mem_erase_iff.mp h).1 rfl
  · rw [if_neg e, find_erase_of_ne e]

/-- So does insertion, and what a key has it keeps. -/
theorem find_append_of_ne (e : k' ≠ k) : find (es ++ [(k, x)]) k' = find es k' := by
  simp [find, List.find?_append, Ne.symm e]

theorem find_append_of_some {y : ν} (h : find es k' = some y) :
    find (es ++ [(k, x)]) k' = some y := by
  rw [find, Option.map_eq_some_iff] at h ⊢
  exact h.imp fun _ he => ⟨by rw [List.find?_append, he.1]; rfl, he.2⟩

theorem mem_of_find (h : find es k = some x) : (k, x) ∈ es := by
  obtain ⟨pre, post, rfl, -⟩ := split_of_find h
  simp

theorem exists_find_iff : (∃ y, find es k = some y) ↔ k ∈ keys es := by
  rw [← Option.isSome_iff_exists, Option.isSome_iff_ne_none, Ne, find_eq_none_iff, not_not]

/-- Other values under the same keys. -/
theorem erase_map {μ : Type w} (f : ν → μ) :
    erase (es.map (Prod.map id f)) k = (erase es k).map (Prod.map id f) :=
  List.eraseP_map ..

theorem find_map {μ : Type w} (f : ν → μ) (h : find es k = some x) :
    find (es.map (Prod.map id f)) k = some (f x) := by
  obtain ⟨e, he, rfl⟩ := Option.map_eq_some_iff.mp h
  have hf : (es.map (Prod.map id f)).find? (fun e => e.1 = k) = some (Prod.map id f e) := by
    rw [List.find?_map]
    exact congrArg _ he
  rw [find, hf]
  rfl

theorem mem_erase {e : κ × ν} (hd : (keys es).Nodup) (h : e ∈ erase es k) : e ∈ es ∧ e.1 ≠ k := by
  have hk : e.1 ∈ (keys es).erase k := by
    rw [← keys_erase]
    exact List.mem_map_of_mem h
  exact ⟨List.mem_of_mem_eraseP h, (hd.mem_erase_iff.mp hk).1⟩

end RivOS.AssocVec
