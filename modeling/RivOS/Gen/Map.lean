import RivOS.Support.AssocVec

/-!
# Gen — Map

`gen/map.hpp`, over the elements of a `gen/vec.hpp` vector: an unsorted vector of entries,
searched from the front.
-/

namespace RivOS

universe u v

structure Map (κ : Type u) (ν : Type v) where
  entries : List (κ × ν)

namespace Map

variable {κ : Type u} {ν : Type v} [DecidableEq κ]

/-- The loop that `operator[]` and `rmkey` share; `none` is `-1`. -/
def foundIndex (m : Map κ ν) (k : κ) : Option Nat := m.entries.findIdx? fun e => e.1 = k

/-- `m[k]` as a value; `none` is the panic of `val()` on an error. -/
def get (m : Map κ ν) (k : κ) : Option ν :=
  ((m.foundIndex k).bind (m.entries[·]?)).map Prod.snd

/-- `m[k] = v`: the reference `operator[]` returns is into the copy that `Vector::operator[]`
made of the entry, so the vector does not see the store. -/
def assign (m : Map κ ν) (k : κ) (_v : ν) : Option (Map κ ν) := (m.get k).map fun _ => m

def insert (m : Map κ ν) (k : κ) (v : ν) : Map κ ν := ⟨m.entries ++ [(k, v)]⟩

def rmkey (m : Map κ ν) (k : κ) : Map κ ν :=
  match m.foundIndex k with
  | some i => ⟨m.entries.eraseIdx i⟩
  | none => m

def «exists» (m : Map κ ν) (k : κ) : Bool := m.entries.any fun e => e.1 = k

variable {m : Map κ ν} {k : κ}

/-! ### The entries as an association vector -/

omit [DecidableEq κ] in
theorem ext {m m' : Map κ ν} (h : m.entries = m'.entries) : m = m' := by
  cases m
  cases m'
  exact congrArg Map.mk h

theorem get_eq_find (m : Map κ ν) (k : κ) : m.get k = AssocVec.find m.entries k := by
  rw [get, AssocVec.find, foundIndex, List.find?_eq_bind_findIdx?_getElem?]

theorem rmkey_entries (m : Map κ ν) (k : κ) :
    (m.rmkey k).entries = AssocVec.erase m.entries k := by
  rw [rmkey, AssocVec.erase, List.eraseP_eq_eraseIdx, foundIndex]
  cases m.entries.findIdx? fun e => decide (e.1 = k) <;> rfl

theorem exists_iff : m.exists k = true ↔ k ∈ AssocVec.keys m.entries := by
  simp [Map.exists, AssocVec.keys]

theorem exists_of_get {v : ν} (h : m.get k = some v) : m.exists k = true := by
  rw [get_eq_find] at h
  exact exists_iff.mpr (AssocVec.mem_keys_of_find h)

/-! ### A new key -/

theorem get_insert (h : k ∉ AssocVec.keys m.entries) (v : ν) : (m.insert k v).get k = some v := by
  rw [get_eq_find, insert, AssocVec.find_concat h, if_pos rfl]

/-- What was entered last is taken out again. -/
theorem rmkey_insert (h : k ∉ AssocVec.keys m.entries) (v : ν) : (m.insert k v).rmkey k = m := by
  refine ext ?_
  have hne : ∀ e ∈ m.entries, ¬ decide (e.1 = k) = true := by
    intro e he heq
    exact h (List.mem_map.mpr ⟨e, he, of_decide_eq_true heq⟩)
  rw [rmkey_entries, insert, AssocVec.erase, List.eraseP_append_right _ hne]
  simp

end Map
end RivOS
