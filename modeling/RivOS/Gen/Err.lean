import Mathlib.Logic.Basic

/-!
# Gen — How a kernel path ends early

A kernel path that does not come to its end has stopped the machine: by `kpanic`, by a page fault,
or by leaving what the language defines.
-/

namespace RivOS

inductive Halt where
  /-- `kpanic(msg)`. -/
  | panic (msg : String)
  /-- An access to an address that is not mapped. -/
  | fault
  /-- A read of what is not there: an unset pointer, an index or an offset beyond the end. -/
  | undefined
deriving DecidableEq

/-- The text of a panic of `val()`. -/
def valOnErr : String := "Called val() on an err value"

def kpanic {α : Type} (msg : String) : Except Halt α := .error (.panic msg)

/-- The value, or the machine stops with `h`. -/
def orHalt {α : Type} (h : Halt) : Option α → Except Halt α
  | some a => .ok a
  | none => .error h

theorem orHalt_eq_ok {α : Type} {h : Halt} {x : Option α} {a : α} :
    orHalt h x = .ok a ↔ x = some a := by
  cases x <;> simp [orHalt]

end RivOS
