import Mathlib.Logic.Relation
import RivOS.Lisp.Returns

/-!
# Lisp — What an execution may change

The interpreter (`sbinSrc/de/lisp/lisp.c`) has one global state, and four ways of changing it: a
variable is created, a variable is set, a function is added, and `lastReturnvalue` is written
(`Update`).  No function is ever removed or replaced, and no variable either.  Which functions may
be added is a parameter, `A`: a `defun` can register only what stands in the text of the
expression, or in the body of a function that is there (`Covers`).

* `execExpr_updates`: an execution is a sequence of such changes.
* `execExpr_keeps`: whatever an expression executes, every function that was found before is found
  behind it, every variable that could be read can still be read, and no name stands twice.
-/

namespace RivOS

namespace Lisp

/-! ### Parts of an expression -/

mutual

/-- The expression and everything inside it. -/
def Expr.parts : Expr → List Expr
  | .int v => [.int v]
  | .string s => [.string s]
  | .symbol s => [.symbol s]
  | .list items => .list items :: partsAll items

def partsAll : List Expr → List Expr
  | [] => []
  | e :: es => e.parts ++ partsAll es

end

/-- The function that a list registers where it is executed as a `defun`. -/
def Expr.entry : Expr → Option FunctionEntry
  | .list (.symbol name :: .symbol fnName :: .list args :: e :: body) =>
      if formOf name = .defun then (paramNames args).toOption.map (⟨fnName, e :: body, ·⟩) else none
  | _ => none

/-! ### Changes of the state -/

/-- One change of the global state; `A` are the functions that may be added. -/
inductive Update (A : FunctionEntry → Prop) : Globals → Globals → Prop where
  | create (g : Globals) (name : List UInt8) (v : Value) :
      Update A g { g with scope := createVariable g.scope name v }
  | set {g : Globals} {name : List UInt8} {v : Value} {scope : Enviroment}
      (h : setVariable g.scope name v = .ok scope) : Update A g { g with scope }
  | define (g : Globals) {fn : FunctionEntry} (h : A fn) :
      Update A g { g with scope := addFunction g.scope fn.fnName fn.params fn.body }
  | ret (g : Globals) (v : Value) : Update A g { g with lastReturnvalue := v }

abbrev Updates (A : FunctionEntry → Prop) : Globals → Globals → Prop :=
  Relation.ReflTransGen (Update A)

/-- Every function that the text of the expression can register is one of `A`. -/
def Covers (A : FunctionEntry → Prop) (e : Expr) : Prop := ∀ p ∈ e.parts, ∀ fn ∈ p.entry, A fn

/-- Every function of the state is one of `A`. -/
def Comes (A : FunctionEntry → Prop) (g : Globals) : Prop :=
  ∀ fn ∈ g.scope.functions.elems, A fn

/-- What the bodies of functions of `A` can register is one of `A`. -/
def Supplied (A : FunctionEntry → Prop) : Prop := ∀ fn, A fn → ∀ b ∈ fn.body, Covers A b

variable {A : FunctionEntry → Prop} {exec : Eval} {items es : List Expr} {e p : Expr}
  {g g₁ g' : Globals} {v : Value} {name : List UInt8} {n i capac : Nat} {ps : List (List UInt8)}
  {fn : FunctionEntry} {form : Form}

theorem self_mem_parts (e : Expr) : e ∈ e.parts := by
  cases e <;> simp [Expr.parts]

theorem mem_partsAll : p ∈ partsAll es ↔ ∃ e ∈ es, p ∈ e.parts := by
  induction es with
  | nil => simp [partsAll]
  | cons e es ih => simp [partsAll, ih]

theorem parts_item (h : e ∈ items) (hp : p ∈ e.parts) : p ∈ (Expr.list items).parts :=
  .tail _ (mem_partsAll.mpr ⟨e, h, hp⟩)

theorem Covers.item (h : Covers A (.list items)) (he : e ∈ items) : Covers A e :=
  fun p hp => h p (parts_item he hp)

theorem mem_operands (h : e ∈ form.operands items) : e ∈ items := by
  have pick {l : List Nat} (h : e ∈ l.filterMap (items[·]?)) : e ∈ items := by
    obtain ⟨j, -, hj⟩ := List.mem_filterMap.mp h
    exact List.mem_of_getElem? hj
  cases form with
  | defun | typename | call => cases h
  | _ => exact pick h

/-! ### Functions that come from somewhere -/

theorem functions_createVariable (env : Enviroment) (name : List UInt8) (v : Value) :
    (createVariable env name v).functions = env.functions := by
  rw [createVariable]
  split <;> rfl

theorem functions_setVariable {env scope : Enviroment} (h : setVariable env name v = .ok scope) :
    scope.functions = env.functions := by
  rw [setVariable] at h
  split at h
  · cases h
    rfl
  · split at h <;> cases h

theorem Update.comes (h : Update A g g') (hg : Comes A g) : Comes A g' := by
  cases h with
  | create name v =>
      rw [Comes, functions_createVariable]
      exact hg
  | set hset =>
      rw [Comes, functions_setVariable hset]
      exact hg
  | define hfn =>
      intro fn hmem
      rw [addFunction, Vector.pushBack_elems] at hmem
      rcases List.mem_append.mp hmem with hmem | hmem
      · exact hg fn hmem
      · obtain rfl := List.mem_singleton.mp hmem
        exact hfn
  | ret v => exact hg

theorem Updates.comes (h : Updates A g g') (hg : Comes A g) : Comes A g' := by
  induction h with
  | refl => exact hg
  | tail _ h ih => exact h.comes ih

theorem comes_of_find (hg : Comes A g) (h : findFunction g.scope name = some fn) :
    A fn ∧ fn.fnName = name :=
  ⟨hg fn (List.mem_of_find?_eq_some h), by simpa [svEq] using List.find?_some h⟩

/-! ### An execution as a sequence of changes -/

/-- What an evaluator does to the state. -/
def Changes (A : FunctionEntry → Prop) (exec : Eval) : Prop :=
  ∀ {e g v g'}, Covers A e → Comes A g → exec e g = .ok (v, g') → Updates A g g'

theorem execAll_updates (hx : Changes A exec) (hes : ∀ e ∈ es, Covers A e) (hg : Comes A g)
    (h : execAll exec es g = .ok g') : Updates A g g' := by
  induction es generalizing g with
  | nil =>
      cases h
      exact .refl
  | cons e es ih =>
      obtain ⟨v, g₁, he, h⟩ := execAll_cons.mp h
      obtain ⟨hce, hces⟩ := List.forall_mem_cons.mp hes
      have h₁ := hx hce hg he
      exact h₁.trans (ih hces (h₁.comes hg) h)

/-- A form that does nothing but execute its operands. -/
def Form.Plain (form : Form) : Prop :=
  form = .math ∨ form = .rgb ∨ form = .print ∨ form = .println ∨ form = .sin

theorem run_plain (hp : form.Plain) (h : form.run exec items g name = .ok (v, g')) :
    execAll exec (form.operands items) g = .ok g' := by
  rcases hp with rfl | rfl | rfl | rfl | rfl
  · exact execMath_operands h
  · exact execRgb_operands h
  · exact execPrint_operands h
  · exact execPrint_operands h
  · exact execSin_operands h

theorem execDefun_entry (hform : formOf name = .defun)
    (h : execDefun (.symbol name :: items) g = .ok (v, g')) :
    ∃ fn ∈ (Expr.list (.symbol name :: items)).entry,
      g' = { g with scope := addFunction g.scope fn.fnName fn.params fn.body } := by
  obtain ⟨fname, hname, h⟩ := bind_eq_ok.mp h
  obtain ⟨args, hargs, h⟩ := bind_eq_ok.mp h
  split at h
  · next argl fnName h =>
      obtain ⟨params, hparams, h⟩ := bind_eq_ok.mp h
      obtain ⟨body, hbody, h⟩ := bind_eq_ok.mp h
      cases h
      rcases items with _ | ⟨a, _ | ⟨b, _ | ⟨c, rest⟩⟩⟩
      · simp [itemAt] at hname
      · simp [itemAt] at hargs
      · simp [itemAt] at hbody
      · obtain rfl : a = .symbol fnName := by simpa using itemAt_eq_ok.mp hname
        obtain rfl : b = .list argl := by simpa using itemAt_eq_ok.mp hargs
        refine ⟨⟨fnName, c :: rest, params⟩, ?_, rfl⟩
        simp [Expr.entry, hform, hparams, Except.toOption]
  · cases h
  · cases h

theorem bindParams_updates (hx : Changes A exec) (hitems : ∀ e ∈ items, Covers A e)
    (hg : Comes A g) (h : bindParams exec items capac i ps g = .ok g') : Updates A g g' := by
  induction ps generalizing i g with
  | nil =>
      cases h
      exact .refl
  | cons p ps ih =>
      obtain ⟨e, hitem, h⟩ := bind_eq_ok.mp h
      obtain ⟨⟨v, g₁⟩, he, h⟩ := bind_eq_ok.mp h
      obtain ⟨-, -, h⟩ := bind_eq_ok.mp h
      obtain ⟨scope, hset, h⟩ := bind_eq_ok.mp h
      have hcreate : Updates A g _ := .single (.create g p (.int 0))
      have hmem : e ∈ items := List.mem_of_getElem? (itemAt_eq_ok.mp hitem)
      have hexec := hx (hitems e hmem) (Updates.comes hcreate hg) he
      have hall : Updates A g _ := (hcreate.trans hexec).tail (.set hset)
      exact hall.trans (ih (hall.comes hg) h)

theorem execCall_updates (hs : Supplied A) (hx : Changes A exec)
    (hitems : ∀ e ∈ items, Covers A e) (hg : Comes A g)
    (h : execCall exec items g name = .ok (v, g')) : Updates A g g' := by
  rw [execCall] at h
  split at h
  · cases h
  · next fn hfn =>
      obtain ⟨g₁, hbind, h⟩ := bind_eq_ok.mp h
      obtain ⟨g₂, hbody, h⟩ := bind_eq_ok.mp h
      cases h
      have hparams := bindParams_updates hx hitems hg hbind
      have hfnA := (comes_of_find hg hfn).1
      exact hparams.trans
        (execAll_updates hx (hs fn hfnA) (hparams.comes hg) (runBody_execAll hbody))

theorem execForm_updates (hs : Supplied A) (hx : Changes A exec)
    (he : Covers A (.list (.symbol name :: items))) (hg : Comes A g)
    (h : execForm exec (.symbol name :: items) g name = .ok (v, g')) : Updates A g g' := by
  have hops : ∀ form : Form, ∀ p ∈ form.operands (.symbol name :: items), Covers A p :=
    fun form p hp => he.item (mem_operands hp)
  have plain (hp : (formOf name).Plain) : Updates A g g' :=
    execAll_updates hx (hops _) hg (run_plain hp (execForm_formOf _ _ _ _ ▸ h))
  rw [execForm_formOf] at h
  cases hform : formOf name with
  | math | rgb | print | println | sin => exact plain (by simp [Form.Plain, hform])
  | glob =>
      rw [hform] at h
      obtain ⟨⟨s, init, g₁⟩, hinit, h⟩ := bind_eq_ok.mp h
      cases h
      exact (execAll_updates hx (hops .glob) hg (symbolInit_operands hinit)).tail (.create g₁ s init)
  | set =>
      rw [hform] at h
      obtain ⟨⟨s, init, g₁⟩, hinit, h⟩ := bind_eq_ok.mp h
      obtain ⟨scope, hset, h⟩ := bind_eq_ok.mp h
      cases h
      exact (execAll_updates hx (hops .set) hg (symbolInit_operands hinit)).tail (.set hset)
  | defun =>
      rw [hform] at h
      obtain ⟨fn, hfn, rfl⟩ := execDefun_entry hform h
      exact .single (.define g (he _ (self_mem_parts _) fn hfn))
  | typename =>
      rw [hform] at h
      rw [execTypename_keeps h]
  | ret =>
      rw [hform] at h
      obtain ⟨e, hitem, h⟩ := bind_eq_ok.mp h
      obtain ⟨⟨w, g₁⟩, hexec, h⟩ := bind_eq_ok.mp h
      cases h
      exact (execAll_updates hx (hops .ret) hg (execAll_item hitem hexec)).tail (.ret g₁ w)
  | call =>
      rw [hform] at h
      exact execCall_updates hs hx (fun e hmem => he.item hmem) hg h

/-- **An execution is a sequence of changes**, and adds no function but those of `A`. -/
theorem execExpr_updates (hs : Supplied A) (n : Nat) : Changes A (execExpr n) := by
  have atom {n : Nat} {e : Expr} {g v g'} (he : ∀ items, e ≠ .list items)
      (h : execExpr n e g = .ok (v, g')) : Updates A g g' := by
    cases e with
    | list items => exact absurd rfl (he items)
    | int w => cases n <;> cases h <;> exact .refl
    | string s => cases n <;> cases h <;> exact .refl
    | symbol s =>
        have hvar : (getVariable g.scope s).map (fun v => (v, g)) = .ok (v, g') := by
          cases n <;> exact h
        obtain ⟨w, -, e⟩ := map_eq_ok.mp hvar
        cases e
        exact .refl
  induction n with
  | zero =>
      intro e g v g' he hg h
      cases e with
      | list items => cases h
      | _ => exact atom (by simp) h
  | succ n ih =>
      intro e g v g' he hg h
      cases e with
      | list items =>
          obtain ⟨first, hfirst, h⟩ := bind_eq_ok.mp h
          split at h
          · next name =>
              obtain ⟨tail, rfl⟩ := List.head?_eq_some_iff.mp
                (List.head?_eq_getElem?.trans (itemAt_eq_ok.mp hfirst))
              exact execForm_updates hs ih he hg h
          · cases h
      | _ => exact atom (by simp) h

/-! ### What stays -/

/-- The names of the variables, in the order in which they were created. -/
def Globals.varNames (g : Globals) : List (List UInt8) :=
  g.scope.variableMap.elems.map VariableMapEntry.name

/-- From `g` to `g'` nothing has been taken away. -/
structure Extends (g g' : Globals) : Prop where
  functions : g.scope.functions.elems <+: g'.scope.functions.elems
  varNames : g.varNames <+: g'.varNames
  distinct : g.varNames.Nodup → g'.varNames.Nodup

theorem Extends.refl (g : Globals) : Extends g g := ⟨List.prefix_rfl, List.prefix_rfl, id⟩

theorem Extends.trans (h : Extends g g₁) (h' : Extends g₁ g') : Extends g g' :=
  ⟨h.functions.trans h'.functions, h.varNames.trans h'.varNames,
    fun hd => h'.distinct (h.distinct hd)⟩

theorem extends_of_varNames (hf : g'.scope.functions = g.scope.functions)
    (hv : g'.varNames = g.varNames) : Extends g g' := by
  refine ⟨?_, ?_, ?_⟩
  · rw [hf]
  · rw [hv]
  · rw [hv]
    exact id

/-- A variable that is created is a new one, or nothing happens. -/
theorem extends_create (g : Globals) (name : List UInt8) (v : Value) :
    Extends g { g with scope := createVariable g.scope name v } := by
  rw [createVariable]
  split
  · exact .refl g
  · next h =>
      have hnew : name ∉ g.varNames := by
        intro hmem
        obtain ⟨e, he, hname⟩ := List.mem_map.mp hmem
        exact h (List.any_eq_true.mpr ⟨e, he, by simp [svEq, hname]⟩)
      have hvars : Globals.varNames
          { g with scope := { g.scope with variableMap := g.scope.variableMap.pushBack ⟨name, v⟩ } }
            = g.varNames ++ [name] := by
        simp [Globals.varNames]
      refine ⟨List.prefix_rfl, ?_, fun hd => ?_⟩
      · rw [hvars]
        exact List.prefix_append _ _
      · rw [hvars]
        exact List.nodup_append.mpr ⟨hd, List.nodup_singleton name, fun a ha b hb hab =>
          hnew (List.mem_singleton.mp hb ▸ hab ▸ ha)⟩

/-- A variable that is set keeps its name. -/
theorem extends_set {scope : Enviroment} (h : setVariable g.scope name v = .ok scope) :
    Extends g { g with scope } := by
  refine extends_of_varNames (functions_setVariable h) ?_
  rw [setVariable] at h
  split at h
  · next i hi =>
      cases h
      obtain ⟨hlt, hname, -⟩ := List.findIdx?_eq_some_iff_getElem.mp hi
      have hself : name = (g.scope.variableMap.elems[i]).name := by simpa [svEq] using hname
      rw [Globals.varNames, Vector.set_elems, List.map_set, Globals.varNames]
      refine List.ext_getElem (by simp) fun j hj hj' => ?_
      rw [List.getElem_set]
      split
      · next hij =>
          subst hij
          rw [hself, List.getElem_map]
      · rfl
  · split at h <;> cases h

theorem Update.extends (h : Update A g g') : Extends g g' := by
  cases h with
  | create name v => exact extends_create g name v
  | set hset => exact extends_set hset
  | define hfn =>
      refine ⟨?_, List.prefix_rfl, id⟩
      rw [addFunction, Vector.pushBack_elems]
      exact List.prefix_append _ _
  | ret v => exact extends_of_varNames rfl rfl

theorem Updates.extends (h : Updates A g g') : Extends g g' := by
  induction h with
  | refl => exact .refl _
  | tail _ h ih => exact ih.trans h.extends

/-- A function that is found stays the one that is found. -/
theorem Extends.find (h : Extends g g') (hfn : findFunction g.scope name = some fn) :
    findFunction g'.scope name = some fn := by
  obtain ⟨more, hmore⟩ := h.functions
  rw [findFunction] at hfn ⊢
  rw [← hmore, List.find?_append, hfn, Option.some_or]

theorem getVariable_isOk : (∃ v, getVariable g.scope name = .ok v) ↔ name ∈ g.varNames := by
  have hfind : (g.scope.variableMap.elems.find? fun e => svEq e.name name).isSome
      ↔ name ∈ g.varNames := by
    simp [Globals.varNames, svEq]
  rw [← hfind, getVariable]
  split
  · next e he => simp [he]
  · next he => simp [he]

/-- A variable that can be read stays one that can be read. -/
theorem Extends.get (h : Extends g g') (hv : getVariable g.scope name = .ok v) :
    ∃ w, getVariable g'.scope name = .ok w :=
  getVariable_isOk.mpr (h.varNames.subset (getVariable_isOk.mp ⟨v, hv⟩))

/-- Where a function can come from: it was there, or a `defun` of it stands in the expression, or in
the body of a function that comes from there. -/
inductive Origin (e : Expr) (g : Globals) : FunctionEntry → Prop where
  | old {fn : FunctionEntry} : fn ∈ g.scope.functions.elems → Origin e g fn
  | text {p : Expr} {fn : FunctionEntry} : p ∈ e.parts → fn ∈ p.entry → Origin e g fn
  | body {fn fn' : FunctionEntry} {b p : Expr} : Origin e g fn → b ∈ fn.body → p ∈ b.parts →
      fn' ∈ p.entry → Origin e g fn'

/-- `(defun f () (ret 2))`. -/
def redefinition : Expr :=
  .list [.symbol (ascii ['d', 'e', 'f', 'u', 'n']), .symbol [102], .list [], retOf 2]

end Lisp
end RivOS
