import RivOS.Lisp.Exec

/-!
# Lisp — Arithmetic

Expression trees of literals, variables and the two-operand operators, and what `execExpr` makes
of them.  The value of a tree is defined on the integers its words stand for (`docs/shaderlang.md`):
sums, differences and products modulo 2^32, quotients and remainders rounded towards zero, and 0
where the divisor is 0.

* `execExpr_value`: a tree without the one division that has no 32-bit quotient gets its value,
  and the environment stays as it was.
* `execExpr_iff`: a tree with such a division stops the program.
-/

namespace RivOS

namespace Lisp

inductive Op where
  | add
  | sub
  | mul
  | div
  | mod
  | xor
  | and
  | or
deriving DecidableEq

/-- The symbol of an operator. -/
def Op.name : Op → List UInt8
  | .add => [43]
  | .sub => [45]
  | .mul => [42]
  | .div => [47]
  | .mod => [37]
  | .xor => [94]
  | .and => [38]
  | .or => [124]

inductive Arith where
  | lit (v : Word)
  | var (name : List UInt8)
  | op (o : Op) (a b : Arith)

/-- The expression a tree is written as. -/
def Arith.toExpr : Arith → Expr
  | .lit v => .int v
  | .var name => .symbol name
  | .op o a b => .list [.symbol o.name, a.toExpr, b.toExpr]

def Arith.vars : Arith → List (List UInt8)
  | .lit _ => []
  | .var name => [name]
  | .op _ a b => a.vars ++ b.vars

/-- How many lists a tree nests. -/
def Arith.depth : Arith → Nat
  | .lit _ | .var _ => 0
  | .op _ a b => max a.depth b.depth + 1

/-! ### The value of a tree -/

def Op.value (o : Op) (a b : Word) : Word :=
  match o with
  | .add => BitVec.ofInt 32 (a.toInt + b.toInt)
  | .sub => BitVec.ofInt 32 (a.toInt - b.toInt)
  | .mul => BitVec.ofInt 32 (a.toInt * b.toInt)
  | .div => if b.toInt = 0 then 0 else BitVec.ofInt 32 (a.toInt.tdiv b.toInt)
  | .mod => if b.toInt = 0 then 0 else BitVec.ofInt 32 (a.toInt.tmod b.toInt)
  | .xor => a ^^^ b
  | .and => a &&& b
  | .or => a ||| b

def Arith.value (ρ : List UInt8 → Word) : Arith → Word
  | .lit v => v
  | .var name => ρ name
  | .op o a b => o.value (a.value ρ) (b.value ρ)

/-- A division whose quotient is 2^31. -/
def Op.Overflows (o : Op) (a b : Word) : Prop :=
  (o = .div ∨ o = .mod) ∧ a.toInt = -2 ^ 31 ∧ b.toInt = -1

/-- The tree divides -2^31 by -1 somewhere. -/
def Arith.Overflows (ρ : List UInt8 → Word) : Arith → Prop
  | .lit _ | .var _ => False
  | .op o a b => a.Overflows ρ ∨ b.Overflows ρ ∨ o.Overflows (a.value ρ) (b.value ρ)

variable {o : Op} {a b : Word} {e : Arith} {ρ : List UInt8 → Word} {g : Globals} {n : Nat}

/-! ### The operators -/

theorem toInt_eq_zero_iff : b.toInt = 0 ↔ b = 0 := by
  rw [← BitVec.toInt_inj]
  rfl

theorem overflows_iff : a.toInt = -2 ^ 31 ∧ b.toInt = -1 ↔ a = BitVec.intMin 32 ∧ b = -1 := by
  rw [← BitVec.toInt_inj, ← BitVec.toInt_inj]
  rfl

theorem divide_eq {q : Word → Word → Word} {r : Word} (h : ¬ (a.toInt = -2 ^ 31 ∧ b.toInt = -1))
    (hq : q a b = r) : divide q a b = .ok (if b.toInt = 0 then 0 else r) := by
  rw [divide]
  simp only [toInt_eq_zero_iff]
  split
  · rfl
  · rw [if_neg fun hov => h (overflows_iff.mpr hov), hq]

theorem divide_overflow {q : Word → Word → Word} (h : a.toInt = -2 ^ 31 ∧ b.toInt = -1) :
    divide q a b = .error .divideError := by
  obtain ⟨rfl, rfl⟩ := overflows_iff.mp h
  rw [divide, if_neg (by decide), if_pos ⟨rfl, rfl⟩]

theorem add_eq_ofInt (a b : Word) : a + b = BitVec.ofInt 32 (a.toInt + b.toInt) := by
  rw [BitVec.ofInt_add, BitVec.ofInt_toInt, BitVec.ofInt_toInt]

theorem sub_eq_ofInt (a b : Word) : a - b = BitVec.ofInt 32 (a.toInt - b.toInt) := by
  rw [← BitVec.toInt_inj, BitVec.toInt_sub, BitVec.toInt_ofInt]

theorem mul_eq_ofInt (a b : Word) : a * b = BitVec.ofInt 32 (a.toInt * b.toInt) := by
  rw [BitVec.ofInt_mul, BitVec.ofInt_toInt, BitVec.ofInt_toInt]

theorem sdiv_eq_ofInt (a b : Word) : a.sdiv b = BitVec.ofInt 32 (a.toInt.tdiv b.toInt) := by
  rw [← BitVec.toInt_inj, BitVec.toInt_sdiv, BitVec.toInt_ofInt]

theorem srem_eq_ofInt (a b : Word) : a.srem b = BitVec.ofInt 32 (a.toInt.tmod b.toInt) := by
  rw [← BitVec.toInt_srem, BitVec.ofInt_toInt]

/-- An operator returns its value, where the division has a quotient. -/
theorem mathOp_value (h : ¬ o.Overflows a b) : mathOp o.name a b = .ok (o.value a b) := by
  have hdiv (ho : o = .div ∨ o = .mod) : ¬ (a.toInt = -2 ^ 31 ∧ b.toInt = -1) :=
    fun hov => h ⟨ho, hov⟩
  cases o with
  | add => exact congrArg _ (add_eq_ofInt a b)
  | sub => exact congrArg _ (sub_eq_ofInt a b)
  | mul => exact congrArg _ (mul_eq_ofInt a b)
  | div => exact divide_eq (hdiv (.inl rfl)) (sdiv_eq_ofInt a b)
  | mod => exact divide_eq (hdiv (.inr rfl)) (srem_eq_ofInt a b)
  | xor => rfl
  | and => rfl
  | or => rfl

theorem mathOp_overflow (h : o.Overflows a b) : mathOp o.name a b = .error .divideError := by
  obtain ⟨rfl | rfl, hov⟩ := h
  · exact divide_overflow hov
  · exact divide_overflow hov

/-! ### The trees -/

/-- The operands are executed, the left one first. -/
theorem execForm_op (exec : Eval) (o : Op) (items : List Expr) (g : Globals) :
    execForm exec items g o.name = execMath exec items g o.name := by
  cases o <;> rfl

theorem execExpr_op (n : Nat) (o : Op) (a b : Arith) (g : Globals) :
    execExpr (n + 1) (Arith.op o a b).toExpr g
      = execMath (execExpr n) [.symbol o.name, a.toExpr, b.toExpr] g o.name :=
  execForm_op (execExpr n) o _ g

/-- The variables of a tree are there, and hold integers. -/
def Defined (ρ : List UInt8 → Word) (g : Globals) (names : List (List UInt8)) : Prop :=
  ∀ x ∈ names, getVariable g.scope x = .ok (.int (ρ x))

theorem Defined.op {a b : Arith} (h : Defined ρ g (Arith.op o a b).vars) :
    Defined ρ g a.vars ∧ Defined ρ g b.vars :=
  ⟨fun x hx => h x (List.mem_append_left _ hx), fun x hx => h x (List.mem_append_right _ hx)⟩

/-- **The value of a tree**, and nothing else has changed. -/
theorem execExpr_value (hdef : Defined ρ g e.vars) (h : ¬ e.Overflows ρ) (hn : e.depth ≤ n) :
    execExpr n e.toExpr g = .ok (.int (e.value ρ), g) := by
  induction e generalizing n with
  | lit v => cases n <;> rfl
  | var name =>
      have hx := hdef name (List.mem_singleton.mpr rfl)
      cases n <;> simp [Arith.toExpr, execExpr, hx, Except.map, Arith.value]
  | op o a b iha ihb =>
      cases n with
      | zero => simp [Arith.depth] at hn
      | succ n =>
          obtain ⟨ha, hb, ho⟩ := not_or.mp h |>.imp id not_or.mp
          obtain ⟨hda, hdb⟩ := hdef.op
          have hdepth : a.depth ≤ n ∧ b.depth ≤ n := by
            simp [Arith.depth] at hn
            exact hn
          have hva := iha hda ha hdepth.1
          have hvb := ihb hdb hb hdepth.2
          rw [execExpr_op, execMath]
          simp only [itemAt, List.getElem?_cons_succ, List.getElem?_cons_zero, ok_bind, hva, hvb,
            mathOp_value ho]
          rfl

/-- The trap: the operands to the left of it have their values, and end no sooner. -/
theorem execExpr_overflow (hdef : Defined ρ g e.vars) (h : e.Overflows ρ) (hn : e.depth ≤ n) :
    execExpr n e.toExpr g = .error .divideError := by
  induction e generalizing n with
  | lit v => exact h.elim
  | var name => exact h.elim
  | op o a b iha ihb =>
      cases n with
      | zero => simp [Arith.depth] at hn
      | succ n =>
          obtain ⟨hda, hdb⟩ := hdef.op
          have hdepth : a.depth ≤ n ∧ b.depth ≤ n := by
            simp [Arith.depth] at hn
            exact hn
          rw [execExpr_op, execMath]
          simp only [itemAt, List.getElem?_cons_succ, List.getElem?_cons_zero, ok_bind]
          by_cases ha : a.Overflows ρ
          · rw [iha hda ha hdepth.1]
            rfl
          · rw [execExpr_value hda ha hdepth.1, ok_bind]
            by_cases hb : b.Overflows ρ
            · simp only [ihb hdb hb hdepth.2]
              rfl
            · have ho : o.Overflows (a.value ρ) (b.value ρ) := by
                rcases h with h | h | h
                · exact absurd h ha
                · exact absurd h hb
                · exact h
              simp only [execExpr_value hdb hb hdepth.2, ok_bind, mathOp_overflow ho]
              rfl

/-- **When a tree gets its value**: where it does not divide -2^31 by -1. -/
theorem execExpr_iff (hdef : Defined ρ g e.vars) :
    (∃ k, ∀ n, k ≤ n → execExpr n e.toExpr g = .ok (.int (e.value ρ), g)) ↔ ¬ e.Overflows ρ := by
  constructor
  · rintro ⟨k, hk⟩ h
    have hval := hk (max k e.depth) (Nat.le_max_left _ _)
    have htrap := execExpr_overflow hdef h (Nat.le_max_right k e.depth)
    cases hval.symm.trans htrap
  · exact fun h => ⟨e.depth, fun n hn => execExpr_value hdef h hn⟩

/-- The variable `x`, which is 5. -/
def someGlobals : Globals := ⟨createVariable enviromentInit [120] (.int 5), .none⟩

/-- `(+ x 1)`. -/
theorem execExpr_someGlobals :
    ∃ k, ∀ n, k ≤ n → execExpr n (Arith.op .add (.var [120]) (.lit 1)).toExpr someGlobals
      = .ok (.int 6, someGlobals) := by
  have hdef : Defined (fun _ => 5) someGlobals (Arith.op .add (.var [120]) (.lit 1)).vars := by
    intro x hx
    rw [List.mem_singleton.mp hx]
    rfl
  have h : ¬ (Arith.op .add (.var [120]) (.lit 1)).Overflows fun _ => 5 := by
    rintro (h | h | ⟨h | h, -⟩)
    · exact h
    · exact h
    · cases h
    · cases h
  exact (execExpr_iff hdef).mpr h

/-- `(/ (- (- 0 2147483647) 1) (- 0 1))`. -/
def trapping : Arith :=
  .op .div (.op .sub (.op .sub (.lit 0) (.lit 2147483647)) (.lit 1)) (.op .sub (.lit 0) (.lit 1))

theorem execExpr_trapping :
    ¬ ∀ (e : Arith) (ρ : List UInt8 → Word) (g : Globals), Defined ρ g e.vars →
      ∃ k, ∀ n, k ≤ n → execExpr n e.toExpr g = .ok (.int (e.value ρ), g) := by
  intro h
  have hdef : Defined (fun _ => 0) someGlobals trapping.vars := fun x hx => by cases hx
  obtain ⟨k, hk⟩ := h trapping (fun _ => 0) someGlobals hdef
  have hov : trapping.Overflows fun _ => 0 := .inr (.inr ⟨.inl rfl, by decide, by decide⟩)
  have hrun := execExpr_overflow hdef hov (Nat.le_add_left trapping.depth k)
  cases (hk (k + trapping.depth) (Nat.le_add_right k _)).symm.trans hrun

end Lisp
end RivOS
