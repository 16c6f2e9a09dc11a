import Mathlib.Algebra.Group.Nat.Defs
import Mathlib.Data.List.Basic

/-!
# Lib — C strings

`lib/cstring.hpp`.  A C string is the list of its characters before the terminating NUL; that no
character is NUL is a field, so `strlen` is the length.  A pointer into a string is the list of
the characters from there to the NUL, and a read at or past the end gives the NUL.
-/

namespace RivOS

/-- The characters before the terminating NUL. -/
structure CStr where
  chars : List UInt8
  nulFree : 0 ∉ chars
deriving DecidableEq

/-- The bytes of a source literal. -/
def ascii (cs : List Char) : List UInt8 := cs.map fun c => UInt8.ofNat c.toNat

/-- A source literal as a C string. -/
def CStr.lit (cs : List Char) (h : 0 ∉ ascii cs := by decide) : CStr := ⟨ascii cs, h⟩

/-- `'/'`. -/
def slash : UInt8 := 47

/-- `s[i]`, for a pointer `s` into a string. -/
def charAt (s : List UInt8) (i : Nat) : UInt8 := s.getD i 0

def strlen (s : CStr) : Nat := s.chars.length

/-- Both strings advance while they agree; the result is the difference where they stop. -/
def strcmp : List UInt8 → List UInt8 → Int
  | a :: as, b :: bs => if a = b then strcmp as bs else (a.toNat : Int) - b.toNat
  | a :: _, [] => a.toNat
  | [], b :: _ => -(b.toNat : Int)
  | [], [] => 0

def streq (a b : CStr) : Bool := strcmp a.chars b.chars == 0

def strBeginsWith : List UInt8 → List UInt8 → Bool
  | _, [] => true
  | [], _ :: _ => false
  | a :: str, b :: start => a = b && strBeginsWith str start

/-- The number of characters before `target` or the end. -/
def strlenSpecChar : List UInt8 → UInt8 → Nat
  | [], _ => 0
  | c :: s, target => if c = target then 0 else strlenSpecChar s target + 1

/-- The index of `target`, and `0` also when it does not occur. -/
def findChar (s : List UInt8) (target : UInt8) : Nat := (s.findIdx? (· = target)).getD 0

def countOccurence (s : List UInt8) (c : UInt8) : Nat := s.count c

@[ext] theorem CStr.ext {a b : CStr} (h : a.chars = b.chars) : a = b := by
  cases a; cases b; cases h; rfl

theorem byte_toNat_ne_zero {a : UInt8} (h : a ≠ 0) : a.toNat ≠ 0 :=
  fun e => h (UInt8.toNat_inj.mp e)

theorem strcmp_eq_zero_iff : ∀ {a b : List UInt8}, 0 ∉ a → 0 ∉ b → (strcmp a b = 0 ↔ a = b)
  | [], [], _, _ => by simp [strcmp]
  | a :: _, [], ha, _ => by
      have : a.toNat ≠ 0 := byte_toNat_ne_zero fun h => ha (by simp [h])
      simp [strcmp, this]
  | [], b :: _, _, hb => by
      have : b.toNat ≠ 0 := byte_toNat_ne_zero fun h => hb (by simp [h])
      simp [strcmp, this]
  | a :: as, b :: bs, ha, hb => by
      have ih := strcmp_eq_zero_iff (fun h => ha (.tail a h)) (fun h => hb (.tail b h))
      by_cases e : a = b
      · simp [strcmp, e, ih]
      · have : a.toNat ≠ b.toNat := fun h => e (UInt8.toNat_inj.mp h)
        simp only [strcmp, e, if_false, List.cons.injEq, false_and, iff_false]
        omega

/-- `streq` is equality. -/
theorem streq_iff {a b : CStr} : streq a b = true ↔ a = b := by
  rw [streq, beq_iff_eq, strcmp_eq_zero_iff a.nulFree b.nulFree]
  exact ⟨CStr.ext, fun h => h ▸ rfl⟩

end RivOS
