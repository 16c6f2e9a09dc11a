import Mathlib.Data.List.Basic

/-!
# Lib — Upper and lower case

`toUpper` and `strToUpper` of `gen/alpha.hpp` and `streqi` of `lib/cstring.hpp`, which are also in
`boot/string.h`.  A buffer is the list of its characters; the functions stop at the first NUL, and
reading on past the list gives one.

* `streqi_iff`: for texts of one length `streqi` is equality but for the case of letters.
-/

namespace RivOS

/-- `c - 'a' + 'A'` of a small letter. -/
def toUpper (c : UInt8) : UInt8 := if 97 ≤ c ∧ c ≤ 122 then c - 97 + 65 else c

def strToUpper : List UInt8 → List UInt8
  | [] => []
  | c :: s => if c = 0 then c :: s else toUpper c :: strToUpper s

/-- Both strings advance while neither is at its end. -/
def streqi : List UInt8 → List UInt8 → Bool
  | a :: as, b :: bs =>
      if a = 0 ∨ b = 0 then a == b
      else if toUpper a ≠ toUpper b then false else streqi as bs
  | a :: _, [] => a == 0
  | [], b :: _ => b == 0
  | [], [] => true

variable {a b s : List UInt8}

theorem toUpper_toUpper (c : UInt8) : toUpper (toUpper c) = toUpper c := by
  obtain ⟨v⟩ := c
  revert v
  decide +kernel

theorem toUpper_eq_zero_iff {c : UInt8} : toUpper c = 0 ↔ c = 0 := by
  obtain ⟨v⟩ := c
  revert v
  decide +kernel

@[simp] theorem length_strToUpper : (strToUpper s).length = s.length := by
  induction s with
  | nil => rfl
  | cons c s ih =>
      rw [strToUpper]
      split
      · rfl
      · rw [List.length_cons, List.length_cons, ih]

/-- Letters keep what they are but for their case. -/
@[simp] theorem map_toUpper_strToUpper : (strToUpper s).map toUpper = s.map toUpper := by
  induction s with
  | nil => rfl
  | cons c s ih =>
      rw [strToUpper]
      split
      · rfl
      · rw [List.map_cons, List.map_cons, toUpper_toUpper, ih]

theorem zero_mem_strToUpper : 0 ∈ strToUpper s ↔ 0 ∈ s := by
  induction s with
  | nil => rfl
  | cons c s ih =>
      rw [strToUpper]
      split
      · rfl
      · rw [List.mem_cons, List.mem_cons, ih, eq_comm, toUpper_eq_zero_iff, eq_comm]

theorem streqi_iff (hlen : a.length = b.length) (hb : 0 ∉ b) :
    streqi a b = true ↔ a.map toUpper = b.map toUpper := by
  induction a generalizing b with
  | nil =>
      obtain rfl := List.eq_nil_of_length_eq_zero hlen.symm
      simp [streqi]
  | cons c a ih =>
      obtain ⟨d, b, rfl⟩ := List.exists_cons_of_length_eq_add_one hlen.symm
      have hd : d ≠ 0 := fun h => hb (by simp [h])
      have ih := ih (Nat.succ.inj hlen) fun h => hb (.tail d h)
      by_cases hc : c = 0
      · have hne : toUpper 0 ≠ toUpper d := fun h =>
          hd (toUpper_eq_zero_iff.mp (h.symm.trans (toUpper_eq_zero_iff.mpr rfl)))
        simp [streqi, hc, hne, Ne.symm hd]
      · by_cases hu : toUpper c = toUpper d <;> simp [streqi, hc, hd, hu, ih]

end RivOS
