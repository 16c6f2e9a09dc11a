import Mathlib.Data.Nat.Digits.Lemmas
import RivOS.Support.Paging

/-!
# Gen — Alpha

`gen/alpha.hpp`, and `gen/alpha.h` of the user programs, which has the same functions and `stou`
besides.  A string is its characters before the NUL; the integers are 32 bits wide and wrap.

* `stoi_digits`, `stou_digits`: a number read back from its digits, leading zeros or not; with a sign
  in front, `stoi_minus` and `stoi_plus`.
* `decimal_isdigit`, `decVal_decimal`: the digits `decimal` writes, and the number they stand for.
-/

namespace RivOS

def isdigit (c : UInt8) : Bool := 48 ≤ c ∧ c ≤ 57

def isalpha (c : UInt8) : Bool := (97 ≤ c ∧ c ≤ 122) ∨ (65 ≤ c ∧ c ≤ 90)

def strIsDigit : List UInt8 → Bool
  | [] => false
  | s => s.all isdigit

/-- A sign may stand in front: `'-'` or `'+'`. -/
def strIsNumber : List UInt8 → Bool
  | 45 :: str => strIsDigit str
  | 43 :: str => strIsDigit str
  | str => strIsDigit str

/-- `c - '0'` of a digit. -/
def digitVal (c : UInt8) : Nat := c.toNat - 48

/-- `result * 10 + (*str - '0')`. -/
def pushDigit (result : Word) (c : UInt8) : Word := result * 10 + BitVec.ofNat 32 (digitVal c)

/-- The loop of `stoi`; `none` where it meets a character that is no digit. -/
def stoiDigits (result : Word) : List UInt8 → Option Word
  | [] => some result
  | c :: str => if isdigit c then stoiDigits (pushDigit result c) str else none

def stoi : List UInt8 → Word
  | 45 :: str => (stoiDigits 0 str).elim 0 fun result => -result
  | str => (stoiDigits 0 str).getD 0

def stouFrom (result : Word) : List UInt8 → Word
  | [] => result
  | c :: s => if isdigit c then stouFrom (pushDigit result c) s else result

/-- `stou`: stops at the first character that is no digit. -/
def stou (s : List UInt8) : Word := stouFrom 0 s

/-! ### Numbers and their digits -/

def decFrom (n : Nat) (s : List UInt8) : Nat := s.foldl (fun n c => n * 10 + digitVal c) n

/-- The number a string of digits stands for. -/
def decVal (s : List UInt8) : Nat := decFrom 0 s

/-- The digits of a number, `0` for zero. -/
def decimal (n : Nat) : List UInt8 :=
  if n = 0 then [48] else (Nat.digits 10 n).reverse.map fun d => UInt8.ofNat (48 + d)

variable {s r : List UInt8} {c : UInt8} {n d : Nat}

theorem toNat_digit (h : d < 10) : (UInt8.ofNat (48 + d)).toNat = 48 + d := by
  rw [UInt8.toNat_ofNat']
  omega

theorem isdigit_digit (h : d < 10) : isdigit (UInt8.ofNat (48 + d)) = true := by
  have := toNat_digit h
  simp only [isdigit, UInt8.le_iff_toNat_le, this, decide_eq_true_eq]
  exact ⟨Nat.le_add_right 48 d, by simp; omega⟩

theorem digitVal_digit (h : d < 10) : digitVal (UInt8.ofNat (48 + d)) = d := by
  rw [digitVal, toNat_digit h]
  omega

theorem digits_lt (h : d ∈ (Nat.digits 10 n).reverse) : d < 10 :=
  Nat.digits_lt_base (by decide) (List.mem_reverse.mp h)

theorem decimal_isdigit (n : Nat) : ∀ c ∈ decimal n, isdigit c = true := by
  intro c hc
  rw [decimal] at hc
  split at hc
  · rw [List.mem_singleton.mp hc]
    decide
  · obtain ⟨d, hd, rfl⟩ := List.mem_map.mp hc
    exact isdigit_digit (digits_lt hd)

theorem decimal_ne_nil (n : Nat) : decimal n ≠ [] := by
  rw [decimal]
  split
  · simp
  · next h => simpa [Nat.digits_eq_nil_iff_eq_zero] using h

theorem decFrom_map (l : List Nat) (hl : ∀ d ∈ l, d < 10) (n : Nat) :
    decFrom n (l.map fun d => UInt8.ofNat (48 + d)) = l.foldl (fun n d => n * 10 + d) n := by
  induction l generalizing n with
  | nil => rfl
  | cons d l ih =>
      have hd := digitVal_digit (hl d (by simp))
      have := ih (fun d hd => hl d (by simp [hd])) (n * 10 + d)
      rw [decFrom] at this
      rw [decFrom, List.map_cons, List.foldl_cons, List.foldl_cons, hd, this]

theorem decVal_decimal (n : Nat) : decVal (decimal n) = n := by
  rw [decVal, decimal]
  split
  · next h => rw [h]; rfl
  · rw [decFrom_map _ (fun d hd => digits_lt hd), List.foldl_reverse]
    calc (Nat.digits 10 n).foldr (fun d n => n * 10 + d) 0
        = Nat.ofDigits 10 (Nat.digits 10 n) := by
          rw [Nat.ofDigits_eq_foldr]
          congr 1
          funext d n
          simp only [Nat.cast_id]
          omega
      _ = n := Nat.ofDigits_digits 10 n

theorem pushDigit_ofNat (n : Nat) (c : UInt8) :
    pushDigit (BitVec.ofNat 32 n) c = BitVec.ofNat 32 (n * 10 + digitVal c) := by
  rw [pushDigit, BitVec.ofNat_add, BitVec.ofNat_mul]
  rfl

theorem stouFrom_digits (hs : ∀ c ∈ s, isdigit c = true) (n : Nat) :
    stouFrom (BitVec.ofNat 32 n) s = BitVec.ofNat 32 (decFrom n s) := by
  induction s generalizing n with
  | nil => rfl
  | cons c s ih =>
      rw [stouFrom, if_pos (hs c (by simp)), pushDigit_ofNat, ih fun c hc => hs c (by simp [hc])]
      rfl

theorem stoiDigits_digits (hs : ∀ c ∈ s, isdigit c = true) (n : Nat) :
    stoiDigits (BitVec.ofNat 32 n) s = some (BitVec.ofNat 32 (decFrom n s)) := by
  induction s generalizing n with
  | nil => rfl
  | cons c s ih =>
      rw [stoiDigits, if_pos (hs c (by simp)), pushDigit_ofNat, ih fun c hc => hs c (by simp [hc])]
      rfl

theorem stou_digits (hs : ∀ c ∈ s, isdigit c = true) : stou s = BitVec.ofNat 32 (decVal s) :=
  stouFrom_digits hs 0

theorem stoi_digits (hs : ∀ c ∈ s, isdigit c = true) : stoi s = BitVec.ofNat 32 (decVal s) := by
  have h := stoiDigits_digits hs 0
  rw [stoi]
  · rw [show (0 : Word) = BitVec.ofNat 32 0 from rfl, h]
    rfl
  · rintro str rfl
    have := hs 45 (by simp)
    revert this
    decide

theorem stoi_minus (hs : ∀ c ∈ s, isdigit c = true) :
    stoi (45 :: s) = -BitVec.ofNat 32 (decVal s) := by
  rw [stoi, show (0 : Word) = BitVec.ofNat 32 0 from rfl, stoiDigits_digits hs]
  rfl

/-- A `+` is no digit, and `stoi` has stopped at it. -/
theorem stoi_plus (s : List UInt8) : stoi (43 :: s) = 0 := rfl

theorem strIsDigit_iff : strIsDigit s = true ↔ s ≠ [] ∧ ∀ c ∈ s, isdigit c = true := by
  cases s with
  | nil => simp [strIsDigit]
  | cons c s => simp [strIsDigit]

end RivOS
