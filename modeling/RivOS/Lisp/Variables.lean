import RivOS.Lisp.Arith

/-!
# Lisp — Variables

`createVariable` and `setVariable` (`sbinSrc/de/lisp/lisp.c`), one behind the other: the first adds
the name where it is new, the second sets it.  Between them they put one value in place (`upsert`),
and no other variable is read differently afterwards.
-/

namespace RivOS

namespace Lisp

variable {scope : Enviroment}

/-- The variables with one of them set, at the end if it is new. -/
def upsert (name : List UInt8) (v : Value) : List VariableMapEntry → List VariableMapEntry
  | [] => [⟨name, v⟩]
  | e :: l => if e.name = name then ⟨name, v⟩ :: l else e :: upsert name v l

theorem set_findIdx {name : List UInt8} {v : Value} {l : List VariableMapEntry} {i : Nat}
    (h : l.findIdx? (fun e => svEq name e.name) = some i) :
    l.set i ⟨name, v⟩ = upsert name v l := by
  induction l generalizing i with
  | nil => cases h
  | cons e l ih =>
      rw [List.findIdx?_cons] at h
      by_cases he : e.name = name
      · rw [if_pos (by simp [svEq, he])] at h
        cases h
        rw [upsert, if_pos he, List.set_cons_zero]
      · rw [if_neg (by simpa [svEq] using fun e' => he e'.symm)] at h
        obtain ⟨j, hj, rfl⟩ := Option.map_eq_some_iff.mp h
        rw [upsert, if_neg he, List.set_cons_succ, ih hj]

/-- `createVariable` first adds the name with the value 0. -/
theorem upsert_created {name : List UInt8} {v w : Value} {l : List VariableMapEntry}
    (h : ∀ e ∈ l, e.name ≠ name) : upsert name v (l ++ [⟨name, w⟩]) = upsert name v l := by
  induction l with
  | nil => simp [upsert]
  | cons e l ih =>
      have he := h e (by simp)
      rw [List.cons_append, upsert, upsert, if_neg he, if_neg he, ih fun a ha => h a (by simp [ha])]

theorem setVariable_upsert {name : List UInt8} (v : Value)
    (h : ∃ e ∈ scope.variableMap.elems, e.name = name) :
    ∃ s, setVariable scope name v = .ok s ∧ s.functions = scope.functions ∧
      s.variableMap.elems = upsert name v scope.variableMap.elems := by
  obtain ⟨e, he, rfl⟩ := h
  have hsome : (scope.variableMap.elems.findIdx? fun a => svEq e.name a.name).isSome :=
    List.findIdx?_isSome.trans (List.any_eq_true.mpr ⟨e, he, by simp [svEq]⟩)
  obtain ⟨i, hi⟩ := Option.isSome_iff_exists.mp hsome
  refine ⟨{ scope with variableMap := scope.variableMap.set i ⟨e.name, v⟩ }, ?_, rfl,
    set_findIdx hi⟩
  rw [setVariable, hi]

/-- A variable is created and set, whether or not it was there. -/
theorem createVariable_set (scope : Enviroment) (name : List UInt8) (v : Value) :
    ∃ s, setVariable (createVariable scope name (.int 0)) name v = .ok s ∧
      s.functions = scope.functions ∧
      s.variableMap.elems = upsert name v scope.variableMap.elems := by
  rw [createVariable]
  split
  · next h =>
      obtain ⟨e, he, hname⟩ := List.any_eq_true.mp h
      exact setVariable_upsert _ ⟨e, he, by simpa [svEq] using hname⟩
  · next h =>
      have hnew : ∀ e ∈ scope.variableMap.elems, e.name ≠ name := by
        intro e he hname
        exact h (List.any_eq_true.mpr ⟨e, he, by simp [svEq, hname]⟩)
      have hadded : ∃ e ∈ (scope.variableMap.pushBack ⟨name, .int 0⟩).elems, e.name = name :=
        ⟨⟨name, .int 0⟩, by simp, rfl⟩
      obtain ⟨s, hs, hf, he⟩ := @setVariable_upsert
        { scope with variableMap := scope.variableMap.pushBack ⟨name, .int 0⟩ } name v hadded
      refine ⟨s, hs, hf, ?_⟩
      rw [he, Vector.pushBack_elems, upsert_created hnew]

theorem find_upsert_self (name : List UInt8) (v : Value) (l : List VariableMapEntry) :
    (upsert name v l).find? (fun e => svEq e.name name) = some ⟨name, v⟩ := by
  induction l with
  | nil => simp [upsert, svEq]
  | cons e l ih =>
      rw [upsert]
      split
      · simp [svEq]
      · next h =>
          rw [List.find?_cons_of_neg (by simpa [svEq] using h)]
          exact ih

theorem find_upsert_of_ne {name other : List UInt8} (h : other ≠ name) (v : Value)
    (l : List VariableMapEntry) :
    (upsert name v l).find? (fun e => svEq e.name other)
      = l.find? (fun e => svEq e.name other) := by
  induction l with
  | nil => simp [upsert, svEq, h.symm]
  | cons e l ih =>
      rw [upsert]
      split
      · next he =>
          rw [List.find?_cons_of_neg (by simpa [svEq] using h.symm),
            List.find?_cons_of_neg (by simpa [svEq, he] using h.symm)]
      · rw [List.find?_cons, List.find?_cons, ih]

/-- What is read after a variable was set. -/
theorem getVariable_upsert {s : Enviroment} {name : List UInt8} {v : Value}
    (h : s.variableMap.elems = upsert name v scope.variableMap.elems) (other : List UInt8) :
    getVariable s other = if other = name then .ok v else getVariable scope other := by
  rw [getVariable, getVariable, h]
  by_cases e : other = name
  · rw [if_pos e, e, find_upsert_self]
  · rw [if_neg e, find_upsert_of_ne e]

/-- A variable that is created hides none that was there. -/
theorem getVariable_created {name other : List UInt8} {v w : Value}
    (h : getVariable scope other = .ok v) :
    getVariable (createVariable scope name w) other = .ok v := by
  rw [createVariable]
  split
  · exact h
  · rw [getVariable] at h ⊢
    rw [Vector.pushBack_elems, List.find?_append]
    split at h
    · next e he =>
        rw [he]
        exact h
    · cases h

end Lisp
end RivOS
