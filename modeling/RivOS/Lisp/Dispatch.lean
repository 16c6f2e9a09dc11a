import RivOS.Lisp.Exec

/-!
# Lisp — Which form a list is

`execList` (`sbinSrc/de/lisp/lisp.c`) compares the name at the head of a list with the built-in
names, one after the other, and calls a user function where none of them is met.  `svEqLit`
compares as many characters as the name has and does not ask whether the literal ends there, so a
name that a built-in name starts with selects that built-in form.

* `formOf`: the branch that is taken, by the name.
* `runsBody_iff`: a user function is called by its name exactly where no built-in name starts with
  that name.
-/

namespace RivOS

namespace Lisp

/-- The branches of `execList`. -/
inductive Form where
  | math
  | glob
  | set
  | rgb
  | print
  | defun
  | println
  | typename
  | sin
  | ret
  | call
deriving DecidableEq

/-- The names of the forms other than the operators, in the order they are asked for. -/
def formNames : List (List UInt8 × Form) :=
  [(ascii ['g', 'l', 'o', 'b'], .glob), (ascii ['s', 'e', 't'], .set),
    (ascii ['r', 'g', 'b'], .rgb), (ascii ['p', 'r', 'i', 'n', 't'], .print),
    (ascii ['d', 'e', 'f', 'u', 'n'], .defun),
    (ascii ['p', 'r', 'i', 'n', 't', 'l', 'n'], .println),
    (ascii ['t', 'y', 'p', 'e', 'n', 'a', 'm', 'e'], .typename), (ascii ['s', 'i', 'n'], .sin),
    (ascii ['r', 'e', 't'], .ret)]

/-- The built-in names. -/
def builtins : List (List UInt8) := mathOps ++ formNames.map Prod.fst

/-- The first form whose name is met, and a call where there is none. -/
def select (name : List UInt8) : List (List UInt8 × Form) → Form
  | [] => .call
  | (lit, form) :: forms => if svEqLit name lit then form else select name forms

/-- The branch taken for a name. -/
def formOf (name : List UInt8) : Form :=
  if mathOps.any (svEqLit name) then .math else select name formNames

/-- What a branch does. -/
def Form.run (exec : Eval) (items : List Expr) (g : Globals) (name : List UInt8) :
    Form → Except Stop (Value × Globals)
  | .math => execMath exec items g name
  | .glob => execGlob exec items g
  | .set => execSet exec items g
  | .rgb => execRgb exec items g
  | .print | .println => execPrint exec items g
  | .defun => execDefun items g
  | .typename => execTypename items g
  | .sin => execSin exec items g
  | .ret => execRet exec items g
  | .call => execCall exec items g name

variable {exec : Eval} {items args : List Expr} {g : Globals} {fn : FunctionEntry} {f : CStr}
  {name lit : List UInt8}

/-- The chain of comparisons in `execList`. -/
theorem execForm_formOf (exec : Eval) (items : List Expr) (g : Globals) (name : List UInt8) :
    execForm exec items g name = (formOf name).run exec items g name := by
  simp only [formOf, formNames, select, apply_ite (Form.run exec items g name)]
  rfl

theorem select_eq_call {forms : List (List UInt8 × Form)} (h : ∀ f ∈ forms, f.2 ≠ .call) :
    select name forms = .call ↔ ∀ f ∈ forms, svEqLit name f.1 = false := by
  induction forms with
  | nil => simp [select]
  | cons f forms ih =>
      obtain ⟨hf, hforms⟩ := List.forall_mem_cons.mp h
      rw [select, List.forall_mem_cons, ← ih hforms]
      split
      · next hlit => simp [hf, hlit]
      · next hlit => simp [hlit]

theorem formOf_eq_call : formOf name = .call ↔ ∀ b ∈ builtins, svEqLit name b = false := by
  have hsel : select name formNames = .call ↔ ∀ f ∈ formNames, svEqLit name f.1 = false :=
    select_eq_call (by decide)
  rw [formOf, builtins]
  split
  · next hmath =>
      obtain ⟨op, hop, heq⟩ := List.any_eq_true.mp hmath
      refine iff_of_false (by decide) fun h => ?_
      rw [h op (List.mem_append_left _ hop)] at heq
      cases heq
  · next hmath =>
      have hops : ∀ op ∈ mathOps, svEqLit name op = false := by simpa using hmath
      rw [hsel, List.forall_mem_append, List.forall_mem_map]
      exact ⟨fun h => ⟨hops, h⟩, fun h => h.2⟩

/-- The comparison, of a name without a NUL: the literal starts with it. -/
theorem svEqLit_iff (f : CStr) : svEqLit f.chars lit = true ↔ f.chars <+: lit := by
  rw [svEqLit, List.isPrefixOf_iff_prefix]
  constructor
  · intro h
    rcases List.prefix_concat_iff.mp h with e | h
    · exact absurd (e ▸ List.mem_append_right lit (List.mem_singleton.mpr rfl)) f.nulFree
    · exact h
  · exact fun h => h.trans (List.prefix_append _ _)

theorem formOf_call_iff (f : CStr) :
    formOf f.chars = .call ↔ ∀ b ∈ builtins, ¬ f.chars <+: b := by
  rw [formOf_eq_call]
  refine forall₂_congr fun b _ => ?_
  rw [← svEqLit_iff, Bool.not_eq_true]

/-- The execution of a list with the name at its head and the arguments behind it runs the body of
`fn`, with its parameters bound, and no built-in form. -/
def RunsBody (exec : Eval) (name : List UInt8) (args : List Expr) (g : Globals)
    (fn : FunctionEntry) : Prop :=
  formOf name = .call ∧
    execList exec (.symbol name :: args) g = do
      let capac := g.scope.functions.capac
      let g ← bindParams exec (.symbol name :: args) capac 0 fn.params g
      let g ← runBody exec capac fn.body g
      .ok (g.lastReturnvalue, g)

/-- **When a user function is called**: no built-in name starts with its name. -/
theorem runsBody_iff (exec : Eval) (f : CStr) (args : List Expr) (g : Globals)
    (hfn : findFunction g.scope f.chars = some fn) :
    RunsBody exec f.chars args g fn ↔ ∀ b ∈ builtins, ¬ f.chars <+: b := by
  rw [← formOf_call_iff]
  refine and_iff_left_of_imp fun hcall => ?_
  have hlist : execList exec (.symbol f.chars :: args) g
      = execForm exec (.symbol f.chars :: args) g f.chars := rfl
  rw [hlist, execForm_formOf, hcall, Form.run, execCall, hfn]

/-! ### Definitions -/

/-- `(defun f (params) body)` of a name that was not defined before. -/
theorem findFunction_addFunction {env : Enviroment} {fnName : List UInt8}
    (params : List (List UInt8)) (body : List Expr) (h : findFunction env fnName = none) :
    findFunction (addFunction env fnName params body) fnName = some ⟨fnName, body, params⟩ := by
  rw [findFunction] at h
  rw [findFunction, addFunction, Vector.pushBack_elems, List.find?_append, h]
  simp [svEq]

/-- A later definition, of any name, leaves the earlier one in force. -/
theorem findFunction_later {env : Enviroment} {fnName other : List UInt8}
    (params : List (List UInt8)) (body : List Expr) (h : findFunction env fnName = some fn) :
    findFunction (addFunction env other params body) fnName = some fn := by
  rw [findFunction] at h
  rw [findFunction, addFunction, Vector.pushBack_elems, List.find?_append, h, Option.some_or]

/-- `(defun f (a) (ret a))`, in the empty environment. -/
def defined (f : CStr) : Globals :=
  ⟨addFunction enviromentInit f.chars [ascii ['a']]
    [.list [.symbol (ascii ['r', 'e', 't']), .symbol (ascii ['a'])]], .none⟩

theorem findFunction_defined (f : CStr) : ∃ fn, findFunction (defined f).scope f.chars = some fn ∧
    fn.params.length = 1 :=
  ⟨_, findFunction_addFunction _ _ rfl, rfl⟩

/-- The name `id`. -/
theorem runsBody_id :
    ∃ fn, RunsBody (execExpr 2) (ascii ['i', 'd']) [.int 3] (defined (.lit ['i', 'd'])) fn := by
  obtain ⟨fn, hfn, -⟩ := findFunction_defined (.lit ['i', 'd'])
  exact ⟨fn, (runsBody_iff (execExpr 2) (.lit ['i', 'd']) [.int 3] _ hfn).mpr (by decide)⟩

/-- The name `p`, which `print` starts with. -/
theorem runsBody_p :
    ¬ ∀ (exec : Eval) (f : CStr) (args : List Expr) (g : Globals) (fn : FunctionEntry),
      f.chars ∉ builtins → findFunction g.scope f.chars = some fn →
      args.length = fn.params.length → RunsBody exec f.chars args g fn := by
  intro h
  obtain ⟨fn, hfn, hparams⟩ := findFunction_defined (.lit ['p'])
  obtain ⟨hcall, -⟩ := h (execExpr 2) (.lit ['p']) [.int 3] _ fn (by decide) hfn hparams.symm
  exact absurd hcall (by decide)

end Lisp
end RivOS
