import Mathlib.Data.List.TakeWhile
import RivOS.Gen.Err
import RivOS.Lib.CString
import RivOS.Support.Cursor
import RivOS.Support.Except

/-!
# Lib — Pointers into a buffer

A `char*` that the code moves through a buffer: the bytes of the buffer from there on, the NUL of
a string among them.  Such a pointer may stand one past the end, but not be read there.
-/

namespace RivOS

abbrev Ptr := List UInt8

/-- The first character of a string; its NUL is the last byte. -/
def CStr.ptr (s : CStr) : Ptr := s.chars ++ [0]

/-- The string at the start of a buffer, up to the first NUL. -/
def CStr.ofBuffer (buf : List UInt8) : CStr where
  chars := buf.takeWhile (· ≠ 0)
  nulFree h := by simpa using List.mem_takeWhile_imp h

namespace Ptr

variable {p q r : Ptr} {w : List UInt8} {c : UInt8} {n : Nat} {stop : UInt8 → Bool}

/-- `*p`. -/
def read (p : Ptr) : Except Halt UInt8 := orHalt .undefined p.head?

/-- `p + n`. -/
def add (p : Ptr) (n : Nat) : Except Halt Ptr := orHalt .undefined (Cursor.skip n p)

/-- `while (!stop(*p)) p++`: what the loop passes, and where it stops. -/
def scan (p : Ptr) (stop : UInt8 → Bool) : Except Halt (List UInt8 × Ptr) :=
  orHalt .undefined (Cursor.scan stop p)

/-- `strlenSpecChar` of the kernel: stops at the NUL, too. -/
def strlenSpecChar (p : Ptr) (target : UInt8) : Except Halt Nat :=
  (p.scan fun c => c = 0 ∨ c = target).map fun r => r.1.length

@[simp] theorem read_cons (c : UInt8) (p : Ptr) : read (c :: p) = .ok c := rfl

@[simp] theorem add_one_cons (c : UInt8) (p : Ptr) : add (c :: p) 1 = .ok p := by
  rw [add, Cursor.skip_one_cons]
  rfl

theorem add_append (w : List UInt8) (r : Ptr) : add (w ++ r) w.length = .ok r := by
  rw [add, Cursor.skip_append]
  rfl

theorem scan_append (hw : ∀ a ∈ w, stop a = false) (hc : stop c = true) :
    scan (w ++ c :: r) stop = .ok (w, c :: r) := by
  rw [scan, Cursor.scan_append hw hc]
  rfl

/-- A scan over `w`, where what follows starts with a character that stops it. -/
theorem scan_append_head (hw : ∀ a ∈ w, stop a = false) (hr : ∃ c s, r = c :: s ∧ stop c = true) :
    scan (w ++ r) stop = .ok (w, r) := by
  obtain ⟨c, s, rfl, hc⟩ := hr
  exact scan_append hw hc

/-- What follows the longest run of characters that meet `P`, up to the NUL. -/
theorem dropWhile_head {P : UInt8 → Bool} (h0 : P 0 = false) (t : List UInt8) :
    ∃ d s, t.dropWhile P ++ [0] = d :: s ∧ P d = false := by
  have hnot := List.head?_dropWhile_not P t
  cases hr : t.dropWhile P with
  | nil => exact ⟨0, [], rfl, h0⟩
  | cons d s =>
      rw [hr] at hnot
      exact ⟨d, s ++ [0], rfl, by simpa using hnot⟩

/-- `while (P(*p)) p++` stops inside a string. -/
theorem scan_while {P : UInt8 → Bool} (h0 : P 0 = false) (t : List UInt8) :
    scan (t ++ [0]) (fun c => !P c) = .ok (t.takeWhile P, t.dropWhile P ++ [0]) := by
  have hw : ∀ a ∈ t.takeWhile P, (!P a) = false := by
    intro a ha
    rw [List.mem_takeWhile_imp ha]
    rfl
  obtain ⟨d, s, e, hd⟩ := dropWhile_head h0 t
  have h := scan_append_head hw ⟨d, s, e, by rw [hd]; rfl⟩
  rwa [← List.append_assoc, List.takeWhile_append_dropWhile] at h

/-- A scan for one character. -/
theorem scan_char (h : c ∉ w) : scan (w ++ c :: r) (· = c) = .ok (w, c :: r) := by
  refine scan_append (fun a ha => decide_eq_false fun e => h ?_) (decide_eq_true rfl)
  exact e ▸ ha

/-- A scan for a character that does not come. -/
theorem scan_absent (h : c ∉ p) : scan p (· = c) = .error .undefined := by
  have : Cursor.scan (fun a => decide (a = c)) p = none :=
    Cursor.scan_eq_none fun a ha => decide_eq_false fun e => h (e ▸ ha)
  rw [scan, this]
  rfl

theorem strlenSpecChar_append (h : c ∉ w) (hw : 0 ∉ w) :
    strlenSpecChar (w ++ c :: r) c = .ok w.length := by
  have : scan (w ++ c :: r) (fun a => a = 0 ∨ a = c) = .ok (w, c :: r) := by
    refine scan_append (fun a ha => decide_eq_false fun e => ?_) (by simp)
    rcases e with rfl | rfl
    · exact hw ha
    · exact h ha
  rw [strlenSpecChar, this]
  rfl

theorem read_eq_ok : p.read = .ok c ↔ ∃ r, p = c :: r := by
  rw [read, orHalt_eq_ok, List.head?_eq_some_iff]

theorem add_length (h : p.add n = .ok q) : q.length + n = p.length :=
  Cursor.skip_length (orHalt_eq_ok.mp h)

theorem add_add {m : Nat} (h : p.add n = .ok q) (h' : q.add m = .ok r) : p.add (n + m) = .ok r :=
  orHalt_eq_ok.mpr (Cursor.skip_skip (orHalt_eq_ok.mp h) (orHalt_eq_ok.mp h'))

theorem scan_length (h : p.scan stop = .ok (w, q)) : p.length = w.length + q.length :=
  Cursor.scan_length (orHalt_eq_ok.mp h)

/-- A scan that passes the character it starts at. -/
theorem scan_length_cons (h : scan (c :: p) stop = .ok (w, q)) (hc : stop c = false) :
    q.length < (c :: p).length := by
  obtain ⟨e, -, d, s, rfl, hd⟩ := Cursor.scan_eq_some (orHalt_eq_ok.mp h)
  cases w with
  | nil =>
      obtain rfl : c = d := (List.cons.inj e).1
      rw [hc] at hd
      cases hd
  | cons a w =>
      simp only [e, List.cons_append, List.length_cons, List.length_append]
      omega

end Ptr
end RivOS
