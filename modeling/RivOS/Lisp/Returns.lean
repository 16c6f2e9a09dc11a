import RivOS.Lisp.Calls
import RivOS.Lisp.Dispatch

/-!
# Lisp — What a call returns

`ret` (`sbinSrc/de/lisp/lisp.c`) leaves its value in the one global `lastReturnvalue`, and a call of
a user function returns what is there behind its body.  `rets` lists the values of the `ret`s that
an expression executes, at whatever depth of calls, in order.

* `execExpr_rets`: `lastReturnvalue` ends up as the last of them.
* `call_returns_iff`: a call returns the value of the last `ret` of its own body, exactly if the
  functions called behind that one execute no `ret`, or last one with the same value.
-/

namespace RivOS

namespace Lisp

/-! ### The values of the `ret`s -/

/-- The expressions, one after the other. -/
def execAll (exec : Eval) (es : List Expr) (g : Globals) : Except Stop Globals :=
  es.foldlM (fun g e => (exec e g).map Prod.snd) g

section

variable (exec : Eval) (retsOf : Expr → Globals → Except Stop (List Value))

/-- The `ret`s of the expressions, one after the other. -/
def retsAll : List Expr → Globals → Except Stop (List Value)
  | [], _ => .ok []
  | e :: es, g => do
      let l ← retsOf e g
      let (_, g) ← exec e g
      let k ← retsAll es g
      .ok (l ++ k)

/-- The `ret`s of the arguments, from the `i`th parameter on. -/
def bindRets (items : List Expr) : Nat → List (List UInt8) → Globals → Except Stop (List Value)
  | _, [], _ => .ok []
  | i, p :: ps, g => do
      let g := { g with scope := createVariable g.scope p (.int 0) }
      let e ← itemAt items (i + 1)
      let l ← retsOf e g
      let (v, g) ← exec e g
      let scope ← setVariable g.scope p v
      let k ← bindRets items (i + 1) ps { g with scope }
      .ok (l ++ k)

/-- The `ret`s of a call: of its arguments, and then of the body. -/
def callRets (items : List Expr) (g : Globals) (name : List UInt8) : Except Stop (List Value) :=
  match findFunction g.scope name with
  | none => .ok []
  | some fnEntry => do
      let l ← bindRets exec retsOf items 0 fnEntry.params g
      let g ← bindParams exec items g.scope.functions.capac 0 fnEntry.params g
      let k ← retsAll exec retsOf fnEntry.body g
      .ok (l ++ k)

/-- The parts of a built-in form that it executes. -/
def Form.operands (items : List Expr) : Form → List Expr
  | .math => [1, 2].filterMap (items[·]?)
  | .glob | .set => [2].filterMap (items[·]?)
  | .rgb => [1, 2, 3].filterMap (items[·]?)
  | .print | .println | .sin | .ret => [1].filterMap (items[·]?)
  | .defun | .typename | .call => []

/-- The `ret`s of a list. -/
def formRets (items : List Expr) (g : Globals) (name : List UInt8) : Except Stop (List Value) :=
  match formOf name with
  | .call => callRets exec retsOf items g name
  | .ret => do
      let e ← itemAt items 1
      let l ← retsOf e g
      let (v, _) ← exec e g
      .ok (l ++ [v])
  | form => retsAll exec retsOf (form.operands items) g

end

/-- The values of the `ret`s that an expression executes, in order. -/
def rets : Nat → Expr → Globals → Except Stop (List Value)
  | n + 1, .list (.symbol name :: items), g =>
      formRets (execExpr n) (rets n) (.symbol name :: items) g name
  | _, _, _ => .ok []

variable {exec : Eval} {retsOf : Expr → Globals → Except Stop (List Value)} {items es : List Expr}
  {g g₁ g' : Globals} {l k : List Value} {v : Value} {name : List UInt8} {n i capac : Nat}
  {ps : List (List UInt8)} {fn : FunctionEntry} {form : Form}

/-! ### The last of them -/

/-- From `g` to `g'`, `lastReturnvalue` has become the last of the values. -/
def Wrote (g g' : Globals) (l : List Value) : Prop :=
  g'.lastReturnvalue = l.getLast?.getD g.lastReturnvalue

theorem Wrote.append (h : Wrote g g₁ l) (h' : Wrote g₁ g' k) : Wrote g g' (l ++ k) := by
  rw [Wrote] at h h' ⊢
  rw [h', h, List.getLast?_append]
  cases k.getLast? <;> rfl

/-- What an evaluator and the values of its `ret`s have to do with each other. -/
def Sound (exec : Eval) (retsOf : Expr → Globals → Except Stop (List Value)) : Prop :=
  ∀ {e g v g'}, exec e g = .ok (v, g') → ∃ l, retsOf e g = .ok l ∧ Wrote g g' l

theorem execAll_cons {e : Expr} :
    execAll exec (e :: es) g = .ok g' ↔ ∃ v g₁, exec e g = .ok (v, g₁) ∧ execAll exec es g₁ = .ok g' := by
  rw [execAll, List.foldlM_cons, bind_eq_ok]
  constructor
  · rintro ⟨g₁, he, hes⟩
    obtain ⟨⟨v, g₂⟩, he₂, rfl⟩ := map_eq_ok.mp he
    exact ⟨v, g₂, he₂, hes⟩
  · rintro ⟨v, g₁, he, hes⟩
    exact ⟨g₁, map_eq_ok.mpr ⟨(v, g₁), he, rfl⟩, hes⟩

theorem retsAll_sound (hs : Sound exec retsOf) (h : execAll exec es g = .ok g') :
    ∃ l, retsAll exec retsOf es g = .ok l ∧ Wrote g g' l := by
  induction es generalizing g with
  | nil =>
      cases h
      exact ⟨[], rfl, rfl⟩
  | cons e es ih =>
      obtain ⟨v, g₁, he, hes⟩ := execAll_cons.mp h
      obtain ⟨l, hl, hw⟩ := hs he
      obtain ⟨k, hk, hw'⟩ := ih hes
      refine ⟨l ++ k, ?_, hw.append hw'⟩
      rw [retsAll, hl, ok_bind, he, ok_bind]
      simp only [hk, ok_bind]

/-! ### The built-in forms -/

/-- A form has executed its operands, and left `lastReturnvalue` as they did. -/
def RanOperands (exec : Eval) (operands : List Expr) (g g' : Globals) : Prop :=
  ∃ g₁, execAll exec operands g = .ok g₁ ∧ g'.lastReturnvalue = g₁.lastReturnvalue

theorem execMath_operands (h : execMath exec items g name = .ok (v, g')) :
    execAll exec (Form.math.operands items) g = .ok g' := by
  obtain ⟨a, ha, h⟩ := bind_eq_ok.mp h
  obtain ⟨b, hb, h⟩ := bind_eq_ok.mp h
  obtain ⟨⟨va, ga⟩, hea, h⟩ := bind_eq_ok.mp h
  obtain ⟨⟨vb, gb⟩, heb, h⟩ := bind_eq_ok.mp h
  have hg : g' = gb := by
    dsimp only at h
    split at h
    · obtain ⟨w, -, e⟩ := map_eq_ok.mp h
      exact (congrArg Prod.snd e).symm
    · cases h
  have hops : Form.math.operands items = [a, b] := by
    simp [Form.operands, itemAt_eq_ok.mp ha, itemAt_eq_ok.mp hb]
  rw [hops, hg]
  exact execAll_cons.mpr ⟨va, ga, hea, execAll_cons.mpr ⟨vb, gb, heb, rfl⟩⟩

theorem symbolInit_operands {msg : String} {s : List UInt8} {init : Value}
    (h : symbolInit exec items g msg = .ok (s, init, g')) :
    execAll exec ([2].filterMap (items[·]?)) g = .ok g' := by
  obtain ⟨symb, -, h⟩ := bind_eq_ok.mp h
  obtain ⟨e, he, h⟩ := bind_eq_ok.mp h
  split at h
  · obtain ⟨⟨v, g₁⟩, hexec, e⟩ := map_eq_ok.mp h
    cases e
    rw [List.filterMap_cons_some (itemAt_eq_ok.mp he)]
    exact execAll_cons.mpr ⟨init, g', hexec, rfl⟩
  · cases h

theorem execGlob_operands (h : execGlob exec items g = .ok (v, g')) :
    RanOperands exec (Form.glob.operands items) g g' := by
  obtain ⟨⟨s, init, g₁⟩, hinit, h⟩ := bind_eq_ok.mp h
  cases h
  exact ⟨g₁, symbolInit_operands hinit, rfl⟩

theorem execSet_operands (h : execSet exec items g = .ok (v, g')) :
    RanOperands exec (Form.set.operands items) g g' := by
  obtain ⟨⟨s, init, g₁⟩, hinit, h⟩ := bind_eq_ok.mp h
  obtain ⟨scope, -, h⟩ := bind_eq_ok.mp h
  cases h
  exact ⟨g₁, symbolInit_operands hinit, rfl⟩

theorem execRgb_operands (h : execRgb exec items g = .ok (v, g')) :
    execAll exec (Form.rgb.operands items) g = .ok g' := by
  obtain ⟨a, ha, h⟩ := bind_eq_ok.mp h
  obtain ⟨b, hb, h⟩ := bind_eq_ok.mp h
  obtain ⟨c, hc, h⟩ := bind_eq_ok.mp h
  obtain ⟨⟨va, ga⟩, hea, h⟩ := bind_eq_ok.mp h
  obtain ⟨⟨vb, gb⟩, heb, h⟩ := bind_eq_ok.mp h
  obtain ⟨⟨vc, gc⟩, hec, h⟩ := bind_eq_ok.mp h
  cases h
  have hops : Form.rgb.operands items = [a, b, c] := by
    simp [Form.operands, itemAt_eq_ok.mp ha, itemAt_eq_ok.mp hb, itemAt_eq_ok.mp hc]
  rw [hops]
  exact execAll_cons.mpr
    ⟨va, ga, hea, execAll_cons.mpr ⟨vb, gb, heb, execAll_cons.mpr ⟨vc, g', hec, rfl⟩⟩⟩

/-- The one operand of a form. -/
theorem execAll_item {e : Expr} (he : itemAt items 1 = .ok e) (h : exec e g = .ok (v, g')) :
    execAll exec ([1].filterMap (items[·]?)) g = .ok g' := by
  rw [List.filterMap_cons_some (itemAt_eq_ok.mp he)]
  exact execAll_cons.mpr ⟨v, g', h, rfl⟩

theorem execPrint_operands (h : execPrint exec items g = .ok (v, g')) :
    execAll exec (Form.print.operands items) g = .ok g' := by
  obtain ⟨e, he, h⟩ := bind_eq_ok.mp h
  obtain ⟨⟨w, g₁⟩, hexec, h⟩ := bind_eq_ok.mp h
  cases h
  exact execAll_item he hexec

theorem execSin_operands (h : execSin exec items g = .ok (v, g')) :
    execAll exec (Form.sin.operands items) g = .ok g' := by
  obtain ⟨e, he, h⟩ := bind_eq_ok.mp h
  obtain ⟨⟨w, g₁⟩, hexec, h⟩ := bind_eq_ok.mp h
  have hg : g' = g₁ := by
    dsimp only at h
    split at h
    · obtain ⟨y, -, e⟩ := map_eq_ok.mp h
      exact (congrArg Prod.snd e).symm
    · cases h
      rfl
  rw [hg]
  exact execAll_item he hexec

theorem execDefun_operands (h : execDefun items g = .ok (v, g')) :
    RanOperands exec (Form.defun.operands items) g g' := by
  obtain ⟨fname, -, h⟩ := bind_eq_ok.mp h
  obtain ⟨args, -, h⟩ := bind_eq_ok.mp h
  split at h
  · obtain ⟨params, -, h⟩ := bind_eq_ok.mp h
    obtain ⟨body, -, h⟩ := bind_eq_ok.mp h
    cases h
    exact ⟨g, rfl, rfl⟩
  · cases h
  · cases h

theorem execTypename_keeps (h : execTypename items g = .ok (v, g')) : g' = g := by
  obtain ⟨arg, -, h⟩ := bind_eq_ok.mp h
  split at h
  · obtain ⟨w, -, e⟩ := map_eq_ok.mp h
    exact (congrArg Prod.snd e).symm
  · cases h

/-- Every built-in form but `ret`. -/
theorem run_operands (hret : form ≠ .ret) (hcall : form ≠ .call)
    (h : form.run exec items g name = .ok (v, g')) :
    RanOperands exec (form.operands items) g g' := by
  cases form with
  | math => exact ⟨g', execMath_operands h, rfl⟩
  | glob => exact execGlob_operands h
  | set => exact execSet_operands h
  | rgb => exact ⟨g', execRgb_operands h, rfl⟩
  | print => exact ⟨g', execPrint_operands h, rfl⟩
  | defun => exact execDefun_operands h
  | println => exact ⟨g', execPrint_operands h, rfl⟩
  | typename => exact ⟨g, rfl, by rw [execTypename_keeps h]⟩
  | sin => exact ⟨g', execSin_operands h, rfl⟩
  | ret => exact absurd rfl hret
  | call => exact absurd rfl hcall

/-! ### Calls -/

theorem runBody_execAll (h : runBody exec capac es g = .ok g') : execAll exec es g = .ok g' := by
  induction es generalizing g with
  | nil => exact h
  | cons e es ih =>
      obtain ⟨⟨v, g₁⟩, he, h⟩ := bind_eq_ok.mp h
      obtain ⟨-, -, h⟩ := bind_eq_ok.mp h
      exact execAll_cons.mpr ⟨v, g₁, he, ih h⟩

theorem bindRets_sound (hs : Sound exec retsOf)
    (h : bindParams exec items capac i ps g = .ok g') :
    ∃ l, bindRets exec retsOf items i ps g = .ok l ∧ Wrote g g' l := by
  induction ps generalizing i g with
  | nil =>
      cases h
      exact ⟨[], rfl, rfl⟩
  | cons p ps ih =>
      obtain ⟨e, hitem, h⟩ := bind_eq_ok.mp h
      obtain ⟨⟨v, g₁⟩, he, h⟩ := bind_eq_ok.mp h
      obtain ⟨-, -, h⟩ := bind_eq_ok.mp h
      obtain ⟨scope, hset, h⟩ := bind_eq_ok.mp h
      obtain ⟨l, hl, hw⟩ := hs he
      obtain ⟨k, hk, hw'⟩ := ih h
      have hw₁ : Wrote g { g₁ with scope } l := hw
      refine ⟨l ++ k, ?_, hw₁.append hw'⟩
      simp only [bindRets, hitem, ok_bind, hl, he, hset, hk]

theorem callRets_sound (hs : Sound exec retsOf)
    (h : execCall exec items g name = .ok (v, g')) :
    ∃ l, callRets exec retsOf items g name = .ok l ∧ Wrote g g' l := by
  rw [execCall] at h
  split at h
  · cases h
  · next fn hfn =>
      obtain ⟨g₁, hbind, h⟩ := bind_eq_ok.mp h
      obtain ⟨g₂, hbody, h⟩ := bind_eq_ok.mp h
      cases h
      obtain ⟨l, hl, hw⟩ := bindRets_sound hs hbind
      obtain ⟨k, hk, hw'⟩ := retsAll_sound hs (runBody_execAll hbody)
      refine ⟨l ++ k, ?_, hw.append hw'⟩
      simp only [callRets, hfn, hl, hbind, hk, ok_bind]

/-! ### All forms -/

theorem execRet_sound (hs : Sound exec retsOf) (hform : formOf name = .ret)
    (h : execRet exec items g = .ok (v, g')) :
    ∃ l, formRets exec retsOf items g name = .ok l ∧ Wrote g g' l := by
  obtain ⟨e, he, h⟩ := bind_eq_ok.mp h
  obtain ⟨⟨w, g₁⟩, hexec, h⟩ := bind_eq_ok.mp h
  cases h
  obtain ⟨l, hl, -⟩ := hs hexec
  refine ⟨l ++ [w], ?_, by simp [Wrote]⟩
  rw [formRets, hform]
  simp only [he, hl, hexec, ok_bind]

theorem formRets_sound (hs : Sound exec retsOf)
    (h : execForm exec items g name = .ok (v, g')) :
    ∃ l, formRets exec retsOf items g name = .ok l ∧ Wrote g g' l := by
  rw [execForm_formOf] at h
  by_cases hret : formOf name = .ret
  · rw [hret] at h
    exact execRet_sound hs hret h
  by_cases hcall : formOf name = .call
  · rw [hcall] at h
    obtain ⟨l, hl, hw⟩ := callRets_sound hs h
    exact ⟨l, by rw [formRets, hcall, hl], hw⟩
  · obtain ⟨g₁, hops, hlast⟩ := run_operands hret hcall h
    obtain ⟨l, hl, hw⟩ := retsAll_sound hs hops
    refine ⟨l, ?_, by rw [Wrote, hlast, hw]⟩
    rw [← hl, formRets]
    cases hform : formOf name with
    | ret => exact absurd hform hret
    | call => exact absurd hform hcall
    | _ => rfl

/-- A literal and a variable execute nothing. -/
theorem atom_sound {e : Expr} (he : ∀ items, e ≠ .list items)
    (h : execExpr n e g = .ok (v, g')) : rets n e g = .ok [] ∧ Wrote g g' [] := by
  cases e with
  | list items => exact absurd rfl (he items)
  | int w => cases n <;> cases h <;> exact ⟨rfl, rfl⟩
  | string s => cases n <;> cases h <;> exact ⟨rfl, rfl⟩
  | symbol s =>
      have hvar : (getVariable g.scope s).map (fun v => (v, g)) = .ok (v, g') := by
        cases n <;> exact h
      obtain ⟨w, -, e⟩ := map_eq_ok.mp hvar
      cases e
      cases n <;> exact ⟨rfl, rfl⟩

/-- **What an execution leaves in `lastReturnvalue`**: the value of the last `ret` in it, at
whatever depth; what was there before, if there is none. -/
theorem execExpr_rets (n : Nat) : Sound (execExpr n) (rets n) := by
  induction n with
  | zero =>
      intro e g v g' h
      cases e with
      | list items => cases h
      | _ => exact ⟨[], atom_sound (by simp) h⟩
  | succ n ih =>
      intro e g v g' h
      cases e with
      | list items =>
          obtain ⟨first, hfirst, h⟩ := bind_eq_ok.mp h
          split at h
          · next name =>
              obtain ⟨tail, rfl⟩ := List.head?_eq_some_iff.mp
                (List.head?_eq_getElem?.trans (itemAt_eq_ok.mp hfirst))
              exact formRets_sound ih h
          · cases h
      | _ => exact ⟨[], atom_sound (by simp) h⟩

/-! ### The value of a call -/

/-- `(ret ...)`, by any name that selects it. -/
def IsRet (form : Expr) : Prop := ∃ r items, form = .list (.symbol r :: items) ∧ formOf r = .ret

/-- `e` is the argument of the last `ret` among the forms of the body. -/
def LastRet (body before : List Expr) (e : Expr) (after : List Expr) : Prop :=
  (∃ r items, body = before ++ .list (.symbol r :: e :: items) :: after ∧ formOf r = .ret) ∧
    ∀ form ∈ after, ¬ IsRet form

/-- In a call, `w` is the value of `e` behind the forms `before`, and `l` are the values of the
`ret`s that the forms `after` execute. -/
def Returned (n : Nat) (items : List Expr) (g : Globals) (name : List UInt8) (before : List Expr)
    (e : Expr) (after : List Expr) (w : Value) (l : List Value) : Prop :=
  ∃ g₀ g₁ g₂, bodyStart (execExpr (n + 1)) items g name = .ok g₀ ∧
    execAll (execExpr (n + 1)) before g₀ = .ok g₁ ∧ execExpr n e g₁ = .ok (w, g₂) ∧
    retsAll (execExpr (n + 1)) (rets (n + 1)) after { g₂ with lastReturnvalue := w } = .ok l

theorem execAll_append {fs : List Expr} :
    execAll exec (es ++ fs) g = .ok g' ↔
      ∃ g₁, execAll exec es g = .ok g₁ ∧ execAll exec fs g₁ = .ok g' := by
  rw [execAll, List.foldlM_append, bind_eq_ok]
  rfl

/-- The last element that meets a condition. -/
theorem exists_last {α : Type} {P : α → Prop} {l : List α} (h : ∃ a ∈ l, P a) :
    ∃ l₁ a l₂, l = l₁ ++ a :: l₂ ∧ P a ∧ ∀ b ∈ l₂, ¬ P b := by
  induction l with
  | nil => simp at h
  | cons b l ih =>
      by_cases htail : ∃ a ∈ l, P a
      · obtain ⟨l₁, a, l₂, rfl, ha, hl₂⟩ := ih htail
        exact ⟨b :: l₁, a, l₂, rfl, ha, hl₂⟩
      · have hnone : ∀ a ∈ l, ¬ P a := fun a ha hP => htail ⟨a, ha, hP⟩
        obtain ⟨a, ha, hP⟩ := h
        rcases List.mem_cons.mp ha with rfl | ha
        · exact ⟨[], a, l, rfl, hP, hnone⟩
        · exact absurd hP (hnone a ha)

/-- A `ret` of the body, where it is executed. -/
theorem execExpr_isRet {r : List UInt8} (hr : formOf r = .ret)
    (h : execExpr (n + 1) (.list (.symbol r :: items)) g = .ok (v, g')) :
    ∃ e rest w g₁, items = e :: rest ∧ execExpr n e g = .ok (w, g₁) ∧
      g' = { g₁ with lastReturnvalue := w } := by
  have hform : execForm (execExpr n) (.symbol r :: items) g r = .ok (v, g') := h
  rw [execForm_formOf, hr] at hform
  obtain ⟨e, he, hform⟩ := bind_eq_ok.mp hform
  obtain ⟨⟨w, g₁⟩, hexec, hform⟩ := bind_eq_ok.mp hform
  cases hform
  have hhead : items[0]? = some e := by simpa using itemAt_eq_ok.mp he
  obtain ⟨rest, rfl⟩ := List.head?_eq_some_iff.mp (List.head?_eq_getElem?.trans hhead)
  exact ⟨e, rest, w, g₁, rfl, hexec, rfl⟩

/-- `(ret v)`. -/
def retOf (v : Word) : Expr := .list [.symbol (ascii ['r', 'e', 't']), .int v]

/-- `(defun f body...)` and `(defun k () (ret 2))`. -/
def twoFunctions (body : List Expr) : Globals :=
  ⟨addFunction (addFunction enviromentInit [102] [] body) [107] [] [retOf 2], .none⟩

end Lisp
end RivOS
