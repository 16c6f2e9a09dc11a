import RivOS.Lisp.Termination
import RivOS.Support.Outcome

/-!
# Lisp — Programs that are checked

The interpreter (`sbinSrc/de/lisp/lisp.c`) finds a mistake when it comes to it: a variable that is
not there, an operand that is no integer, a function that nobody has defined, one that never
returns.  `checkExpr` finds them before the run.  Each name has one type, `Γ`.  A function takes
integers, and is known by what its body needs and by what is known behind it.

* `Knows`: the state is what is known of it.
* `runs_math` and its likes: one lemma for each form.
* `checkExpr_sound`: an expression that is checked comes to a value of its type, or to a division
  whose quotient is no 32-bit number.
-/

namespace RivOS

namespace Lisp

open Filter

inductive Ty where
  | none
  | int
  | string
deriving DecidableEq

def Value.ty : Value → Ty
  | .none => .none
  | .int _ => .int
  | .string _ => .string

/-! ### The check -/

/-- The variables that are there for sure, and the type of `lastReturnvalue`. -/
structure Known where
  vars : List (List UInt8)
  ret : Option Ty

/-- A function, the variables that its body needs beside its parameters, and what is known behind
the body. -/
structure Signature where
  fn : FunctionEntry
  needs : List (List UInt8)
  after : Known

/-- What the body needs is there. -/
def Signature.Met (sig : Signature) (k : Known) : Bool := ∀ x ∈ sig.needs, x ∈ k.vars

/-- The type of each name. -/
abbrev Typing := List UInt8 → Ty

/-- The type of a list, whose operands have the types `τs`, and what is known behind it. -/
def checkForm (Δ : List Signature) (name : List UInt8) (k : Known) :
    Form → List Ty → Option (Ty × Known)
  | .math, [.int, .int] => some (.int, k)
  | .rgb, [_, _, _] => some (.int, k)
  | .print, [_] | .println, [_] => some (.none, k)
  | .sin, [_] => some (.int, k)
  | .ret, [τ] => some (.none, { k with ret := some τ })
  | .call, τs => do
      let sig ← Δ.find? fun sig => sig.fn.fnName = name
      let τ ← sig.after.ret
      if τs = List.replicate sig.fn.params.length .int ∧ sig.Met k then
        some (τ, ⟨sig.after.vars ++ k.vars, some τ⟩)
      else none
  | _, _ => none

/-- A variable that is created, or one that is set. -/
def checkInit (Γ : Typing) (x : List UInt8) (k : Known) : Form → List Ty → Option (Ty × Known)
  | .glob, [τ] => if τ = Γ x then some (.none, { k with vars := x :: k.vars }) else none
  | .set, [τ] => if τ = Γ x ∧ x ∈ k.vars then some (.none, k) else none
  | .typename, [] => if x ∈ k.vars then some (.string, k) else none
  | _, _ => none

/-- The forms whose first part is a symbol that is not executed. -/
def Form.Binds (form : Form) : Bool := form = .glob || form = .set || form = .typename

mutual

def checkExpr (Γ : Typing) (Δ : List Signature) : Expr → Known → Option (Ty × Known)
  | .int _, k => some (.int, k)
  | .string _, k => some (.string, k)
  | .symbol s, k => if s ∈ k.vars then some (Γ s, k) else none
  | .list items, k => checkList Γ Δ items k

/-- A list, by the name at its head. -/
def checkList (Γ : Typing) (Δ : List Signature) : List Expr → Known → Option (Ty × Known)
  | [], _ => none
  | e :: args, k => match e with
      | .symbol name =>
          if (formOf name).Binds then checkBinding Γ Δ (formOf name) args k
          else (checkArgs Γ Δ args k).bind fun r => checkForm Δ name r.2 (formOf name) r.1
      | _ => none

def checkBinding (Γ : Typing) (Δ : List Signature) (form : Form) :
    List Expr → Known → Option (Ty × Known)
  | [], _ => none
  | e :: args, k => match e with
      | .symbol x => (checkArgs Γ Δ args k).bind fun r => checkInit Γ x r.2 form r.1
      | _ => none

/-- Expressions that are executed one after the other. -/
def checkArgs (Γ : Typing) (Δ : List Signature) : List Expr → Known → Option (List Ty × Known)
  | [], k => some ([], k)
  | e :: es, k => do
      let (τ, k) ← checkExpr Γ Δ e k
      let (τs, k) ← checkArgs Γ Δ es k
      some (τ :: τs, k)

end

/-! ### What is known of a state -/

structure Knows (Γ : Typing) (k : Known) (g : Globals) : Prop where
  typed : ∀ entry ∈ g.scope.variableMap.elems, entry.val.ty = Γ entry.name
  vars : ∀ x ∈ k.vars, x ∈ g.varNames
  ret : ∀ τ, k.ret = some τ → g.lastReturnvalue.ty = τ

/-- The functions that have been checked are found. -/
def Provides (Δ : List Signature) (g : Globals) : Prop :=
  ∀ sig ∈ Δ, findFunction g.scope sig.fn.fnName = some sig.fn

/-- No variable has gone, and the functions are the same. -/
structure Stays (g g' : Globals) : Prop where
  functions : g'.scope.functions = g.scope.functions
  vars : g.varNames ⊆ g'.varNames

variable {Γ : Typing} {Δ Δ' : List Signature} {k k' k₁ : Known} {τ : Ty} {τs : List Ty}
  {e a b c : Expr} {es args items : List Expr} {g g' g₁ : Globals} {name x : List UInt8} {v : Value}
  {n capac i : Nat} {ps : List (List UInt8)} {sig : Signature} {form : Form} {tokens : Vector Token}

theorem Stays.refl (g : Globals) : Stays g g := ⟨rfl, List.Subset.refl _⟩

theorem Stays.trans (h : Stays g g₁) (h' : Stays g₁ g') : Stays g g' :=
  ⟨h'.functions.trans h.functions, List.Subset.trans h.vars h'.vars⟩

theorem Extends.stays (h : Extends g g') (hf : g'.scope.functions = g.scope.functions) :
    Stays g g' :=
  ⟨hf, h.varNames.subset⟩

theorem Provides.stays (h : Provides Δ g) (hs : Stays g g') : Provides Δ g' := by
  intro sig hsig
  rw [findFunction, hs.functions]
  exact h sig hsig

theorem Provides.mono (h : Provides Δ g) (hΔ : Δ' ⊆ Δ) : Provides Δ' g :=
  fun sig hsig => h sig (hΔ hsig)

theorem Knows.mono (h : Knows Γ k g) (hvars : k'.vars ⊆ k.vars)
    (hret : k'.ret = none ∨ k'.ret = k.ret) : Knows Γ k' g := by
  refine ⟨h.typed, fun x hx => h.vars x (hvars hx), fun τ hτ => ?_⟩
  rcases hret with hret | hret
  · rw [hret] at hτ
    cases hτ
  · exact h.ret τ (hret ▸ hτ)

theorem Knows.get (h : Knows Γ k g) (hx : x ∈ k.vars) :
    ∃ v, getVariable g.scope x = .ok v ∧ v.ty = Γ x := by
  obtain ⟨v, hv⟩ := getVariable_isOk.mpr (h.vars x hx)
  refine ⟨v, hv, ?_⟩
  rw [getVariable] at hv
  split at hv
  · next entry hentry =>
      cases hv
      have hname : entry.name = x := by simpa [svEq] using List.find?_some hentry
      rw [← hname]
      exact h.typed entry (List.mem_of_find?_eq_some hentry)
  · cases hv

theorem Knows.create (h : Knows Γ k g) (hv : v.ty = Γ x) :
    Knows Γ { k with vars := x :: k.vars } { g with scope := createVariable g.scope x v } ∧
      Stays g { g with scope := createVariable g.scope x v } := by
  have hstays := (extends_create g x v).stays (functions_createVariable g.scope x v)
  have hx : x ∈ Globals.varNames { g with scope := createVariable g.scope x v } ∧
      ∀ entry ∈ (createVariable g.scope x v).variableMap.elems, entry.val.ty = Γ entry.name := by
    rw [Globals.varNames]
    simp only
    rw [createVariable]
    split
    · next hany =>
        obtain ⟨entry, hentry, hname⟩ := List.any_eq_true.mp hany
        exact ⟨List.mem_map.mpr ⟨entry, hentry, by simpa [svEq] using hname⟩, h.typed⟩
    · simp only [Vector.pushBack_elems]
      refine ⟨by simp, fun entry hentry => ?_⟩
      rcases List.mem_append.mp hentry with hentry | hentry
      · exact h.typed entry hentry
      · rw [List.mem_singleton.mp hentry]
        exact hv
  refine ⟨⟨hx.2, fun y hy => ?_, h.ret⟩, hstays⟩
  rcases List.mem_cons.mp hy with rfl | hy
  · exact hx.1
  · exact hstays.vars (h.vars y hy)

theorem Knows.set (h : Knows Γ k g) (hx : x ∈ g.varNames) (hv : v.ty = Γ x) :
    ∃ scope, setVariable g.scope x v = .ok scope ∧ Knows Γ k { g with scope } ∧
      Stays g { g with scope } := by
  obtain ⟨i, hi⟩ : ∃ i, (g.scope.variableMap.elems.findIdx? fun e => svEq x e.name) = some i := by
    refine Option.isSome_iff_exists.mp ?_
    obtain ⟨entry, hentry, rfl⟩ := List.mem_map.mp hx
    rw [List.findIdx?_isSome]
    exact List.any_eq_true.mpr ⟨entry, hentry, by simp [svEq]⟩
  have hset : setVariable g.scope x v =
      .ok { g.scope with variableMap := g.scope.variableMap.set i ⟨x, v⟩ } := by
    rw [setVariable, hi]
  have hstays := (extends_set hset).stays rfl
  refine ⟨_, hset, ⟨fun entry hentry => ?_, fun y hy => hstays.vars (h.vars y hy), h.ret⟩, hstays⟩
  simp only [Vector.set_elems] at hentry
  rcases List.mem_or_eq_of_mem_set hentry with hentry | rfl
  · exact h.typed entry hentry
  · exact hv

/-! ### What a check promises -/

/-- A state behind which this is known, and in which nothing has gone. -/
def Behind (Γ : Typing) (k : Known) (g g' : Globals) : Prop := Knows Γ k g' ∧ Stays g g'

/-- A value of the type, and what is known behind it. -/
def Post (Γ : Typing) (g : Globals) (τ : Ty) (k : Known) (r : Value × Globals) : Prop :=
  r.1.ty = τ ∧ Behind Γ k g r.2

/-- The processor cannot divide. -/
abbrev Trapped (s : Stop) : Prop := s = .divideError

/-- From some bound on the expression comes to a value of the type. -/
def Yields (Γ : Typing) (Δ : List Signature) (k : Known) (e : Expr) (τ : Ty) (k' : Known) : Prop :=
  ∀ᶠ n in atTop, ∀ g, Provides Δ g → Knows Γ k g →
    Gives Trapped (Post Γ g τ k') (execExpr n e g)

inductive YieldsAll (Γ : Typing) (Δ : List Signature) :
    Known → List Expr → List Ty → Known → Prop where
  | nil (k : Known) : YieldsAll Γ Δ k [] [] k
  | cons {k k₁ k' : Known} {e : Expr} {es : List Expr} {τ : Ty} {τs : List Ty}
      (h : Yields Γ Δ k e τ k₁) (hs : YieldsAll Γ Δ k₁ es τs k') :
      YieldsAll Γ Δ k (e :: es) (τ :: τs) k'

/-- The parameters are integers, and the body keeps its promise wherever what it needs is there. -/
def Signature.Sound (Γ : Typing) (Δ : List Signature) (sig : Signature) : Prop :=
  (∀ p ∈ sig.fn.params, Γ p = .int) ∧
    ∃ τs, YieldsAll Γ Δ ⟨sig.fn.params ++ sig.needs, none⟩ sig.fn.body τs sig.after

theorem Yields.mono (h : Yields Γ Δ' k e τ k') (hΔ : Δ' ⊆ Δ) : Yields Γ Δ k e τ k' := by
  filter_upwards [h] with n h g hp
  exact h g (hp.mono hΔ)

theorem YieldsAll.mono (h : YieldsAll Γ Δ' k es τs k') (hΔ : Δ' ⊆ Δ) :
    YieldsAll Γ Δ k es τs k' := by
  induction h with
  | nil k => exact .nil k
  | cons h _ ih => exact .cons (h.mono hΔ) ih

theorem alive_of (h : g.scope.functions.capac = capac) : alive capac g = .ok () := if_pos h

/-- A body. -/
theorem YieldsAll.runBody (h : YieldsAll Γ Δ k es τs k') :
    ∀ᶠ n in atTop, ∀ g capac, g.scope.functions.capac = capac → Provides Δ g → Knows Γ k g →
      Gives Trapped (Behind Γ k' g) (runBody (execExpr n) capac es g) := by
  induction h with
  | nil k => exact .of_forall fun n g capac _ _ hk => ⟨hk, .refl g⟩
  | cons h _ ih =>
      filter_upwards [h, ih] with n h ih g capac hcapac hp hk
      refine (h g hp hk).bind ?_
      rintro ⟨v, g₁⟩ ⟨-, hk₁, hs₁⟩
      have hcapac₁ : g₁.scope.functions.capac = capac := by
        rw [hs₁.functions]
        exact hcapac
      refine gives_ok_bind (alive_of hcapac₁) ((ih g₁ capac hcapac₁ (hp.stays hs₁) hk₁).mono ?_)
      rintro g₂ ⟨hk₂, hs₂⟩
      exact ⟨hk₂, hs₁.trans hs₂⟩

/-- The parameters of a call. -/
theorem YieldsAll.bindParams (h : YieldsAll Γ Δ k args (List.replicate ps.length .int) k')
    (hps : ∀ p ∈ ps, Γ p = .int) (hitems : ∀ j e, args[j]? = some e → items[i + j + 1]? = some e) :
    ∀ᶠ n in atTop, ∀ g capac, g.scope.functions.capac = capac → Provides Δ g → Knows Γ k g →
      Gives Trapped (fun g' => Behind Γ k' g g' ∧ ∀ p ∈ ps, p ∈ g'.varNames)
        (bindParams (execExpr n) items capac i ps g) := by
  induction ps generalizing k args i with
  | nil =>
      cases h
      exact .of_forall fun n g capac _ _ hk => ⟨⟨hk, .refl g⟩, fun p hp => by cases hp⟩
  | cons p ps ih =>
      obtain ⟨hp, hps⟩ := List.forall_mem_cons.mp hps
      cases h with
      | @cons _ k₁ _ e args _ _ h hs =>
          have hitem : itemAt items (i + 1) = .ok e := itemAt_eq_ok.mpr (hitems 0 e rfl)
          have hrest := ih hs hps (i := i + 1) fun j e he => by
            have := hitems (j + 1) e he
            rwa [Nat.add_right_comm i 1 j, Nat.add_assoc i j 1]
          filter_upwards [h, hrest] with n h hrest g capac hcapac hprov hk
          obtain ⟨hk₀, hs₀⟩ := hk.create (x := p) (v := .int 0) hp.symm
          have hk₀' : Knows Γ k _ := hk₀.mono (List.subset_cons_self p k.vars) (.inr rfl)
          refine gives_ok_bind hitem ((h _ (hprov.stays hs₀) hk₀').bind ?_)
          rintro ⟨v, g₁⟩ ⟨hv, hk₁, hs₁⟩
          have hs₁' := hs₀.trans hs₁
          have hcapac₁ : g₁.scope.functions.capac = capac := by
            rw [hs₁'.functions]
            exact hcapac
          have hpin : p ∈ g₁.varNames := hs₁.vars (hk₀.vars p List.mem_cons_self)
          obtain ⟨scope, hset, hk₂, hs₂⟩ := hk₁.set hpin (hv.trans hp.symm)
          have hs₂' := hs₁'.trans hs₂
          refine gives_ok_bind (alive_of hcapac₁) (gives_ok_bind hset ?_)
          refine (hrest { g₁ with scope } capac ?_ (hprov.stays hs₂') hk₂).mono ?_
          · rw [hs₂'.functions]
            exact hcapac
          · rintro g₃ ⟨⟨hk₃, hs₃⟩, hin⟩
            refine ⟨⟨hk₃, hs₂'.trans hs₃⟩, List.forall_mem_cons.mpr ⟨?_, hin⟩⟩
            exact hs₃.vars (hs₂.vars hpin)

/-! ### The forms -/

theorem eq_int_of_ty (h : v.ty = .int) : ∃ w, v = .int w := by
  cases v with
  | int w => exact ⟨w, rfl⟩
  | none | string s => cases h

theorem divide_gives (q : Word → Word → Word) (x y : Word) :
    Gives Trapped (fun _ => True) (divide q x y) := by
  rw [divide]
  split
  · trivial
  · split
    · exact rfl
    · trivial

theorem select_ne {forms : List (List UInt8 × Form)} (h : ∀ f ∈ forms, f.2 ≠ form)
    (hcall : form ≠ .call) : select name forms ≠ form := by
  induction forms with
  | nil => exact hcall.symm
  | cons f forms ih =>
      obtain ⟨hf, hforms⟩ := List.forall_mem_cons.mp h
      rw [select]
      split
      · exact hf
      · exact ih hforms

/-- One of the operators. -/
theorem mathOp_gives (h : formOf name = .math) (x y : Word) :
    Gives Trapped (fun _ => True) (mathOp name x y) := by
  have hany : mathOps.any (svEqLit name) = true := by
    by_contra hno
    rw [formOf, if_neg hno] at h
    exact absurd h (select_ne (by decide) (by decide))
  rw [mathOp]
  split; · trivial
  split; · trivial
  split; · trivial
  split; · exact divide_gives _ _ _
  split; · exact divide_gives _ _ _
  split; · trivial
  split; · trivial
  split; · trivial
  split; · trivial
  · next h₁ h₂ h₃ h₄ h₅ h₆ h₇ h₈ h₉ =>
      simp only [mathOps, List.any_cons, List.any_nil, h₁, h₂, h₃, h₄, h₅, h₆, h₇, h₈, h₉] at hany
      cases hany

theorem sinInt_ok (w : Word) : ∃ y, sinInt w = .ok y := by
  obtain ⟨y, hy, -⟩ := map_eq_ok.mp (sinInt_toInt w)
  exact ⟨y, hy⟩

/-- From some bound on the form gives a value of the type, over these arguments. -/
def Runs (Γ : Typing) (Δ : List Signature) (k : Known) (form : Form) (name : List UInt8)
    (args : List Expr) (τ : Ty) (k' : Known) : Prop :=
  ∀ᶠ n in atTop, ∀ g, Provides Δ g → Knows Γ k g →
    Gives Trapped (Post Γ g τ k') (form.run (execExpr n) (.symbol name :: args) g name)

/-- One operand more. -/
theorem Gives.operand {α : Type} {f : Value × Globals → Except Stop α} {q : α → Prop}
    (h : Gives Trapped (Post Γ g τ k₁) (execExpr n e g)) (hp : Provides Δ g)
    (hf : ∀ v g₁, v.ty = τ → Provides Δ g₁ → Knows Γ k₁ g₁ → Stays g g₁ →
      Gives Trapped q (f (v, g₁))) : Gives Trapped q (execExpr n e g >>= f) := by
  refine h.bind ?_
  rintro ⟨v, g₁⟩ ⟨hv, hk, hs⟩
  exact hf v g₁ hv (hp.stays hs) hk hs

theorem runs_math (hname : formOf name = .math) (ha : Yields Γ Δ k a .int k₁)
    (hb : Yields Γ Δ k₁ b .int k') : Runs Γ Δ k .math name [a, b] .int k' := by
  filter_upwards [ha, hb] with n ha hb g hp hk
  refine gives_ok_bind (a := a) rfl (gives_ok_bind (a := b) rfl ?_)
  refine Gives.operand (ha g hp hk) hp fun va g₁ hva hp₁ hk₁ hs₁ => ?_
  refine Gives.operand (hb g₁ hp₁ hk₁) hp₁ fun vb g₂ hvb _ hk₂ hs₂ => ?_
  obtain ⟨x, rfl⟩ := eq_int_of_ty hva
  obtain ⟨y, rfl⟩ := eq_int_of_ty hvb
  exact (mathOp_gives hname x y).map fun _ _ => ⟨rfl, hk₂, hs₁.trans hs₂⟩

theorem runs_rgb {τ₁ τ₂ τ₃ : Ty} {k₂ : Known} (ha : Yields Γ Δ k a τ₁ k₁)
    (hb : Yields Γ Δ k₁ b τ₂ k₂) (hc : Yields Γ Δ k₂ c τ₃ k') :
    Runs Γ Δ k .rgb name [a, b, c] .int k' := by
  filter_upwards [ha, hb, hc] with n ha hb hc g hp hk
  refine gives_ok_bind (a := a) rfl (gives_ok_bind (a := b) rfl (gives_ok_bind (a := c) rfl ?_))
  refine Gives.operand (ha g hp hk) hp fun va g₁ _ hp₁ hk₁ hs₁ => ?_
  refine Gives.operand (hb g₁ hp₁ hk₁) hp₁ fun vb g₂ _ hp₂ hk₂ hs₂ => ?_
  refine Gives.operand (hc g₂ hp₂ hk₂) hp₂ fun vc g₃ _ _ hk₃ hs₃ => ?_
  exact ⟨rfl, hk₃, (hs₁.trans hs₂).trans hs₃⟩

theorem runs_print (hform : form = .print ∨ form = .println) (ha : Yields Γ Δ k a τ k') :
    Runs Γ Δ k form name [a] .none k' := by
  filter_upwards [ha] with n ha g hp hk
  have hprint : form.run (execExpr n) [.symbol name, a] g name =
      execPrint (execExpr n) [.symbol name, a] g := by
    rcases hform with rfl | rfl <;> rfl
  rw [hprint]
  refine gives_ok_bind (a := a) rfl ?_
  exact Gives.operand (ha g hp hk) hp fun va g₁ _ _ hk₁ hs₁ => ⟨rfl, hk₁, hs₁⟩

theorem runs_sin (ha : Yields Γ Δ k a τ k') : Runs Γ Δ k .sin name [a] .int k' := by
  filter_upwards [ha] with n ha g hp hk
  refine gives_ok_bind (a := a) rfl ?_
  refine Gives.operand (ha g hp hk) hp fun va g₁ _ _ hk₁ hs₁ => ?_
  cases va with
  | int x =>
      obtain ⟨y, hy⟩ := sinInt_ok x
      simp only [hy]
      exact ⟨rfl, hk₁, hs₁⟩
  | none | string s => exact ⟨rfl, hk₁, hs₁⟩

theorem runs_ret (ha : Yields Γ Δ k a τ k') :
    Runs Γ Δ k .ret name [a] .none { k' with ret := some τ } := by
  filter_upwards [ha] with n ha g hp hk
  refine gives_ok_bind (a := a) rfl ?_
  refine Gives.operand (ha g hp hk) hp fun va g₁ hva _ hk₁ hs₁ => ?_
  refine ⟨rfl, ⟨hk₁.typed, hk₁.vars, fun σ hσ => ?_⟩, hs₁.functions, hs₁.vars⟩
  cases hσ
  exact hva

/-- The symbol and its value, of `glob` and `set`. -/
theorem Gives.symbolInit {exec : Eval} {msg : String}
    (h : Gives Trapped (Post Γ g τ k') (exec a g)) :
    Gives Trapped (fun s => s.1 = x ∧ Post Γ g τ k' s.2)
      (symbolInit exec [.symbol name, .symbol x, a] g msg) := by
  change Gives Trapped _ ((exec a g).map fun r => (x, r))
  exact h.map fun r hr => ⟨rfl, hr⟩

theorem runs_glob (hx : τ = Γ x) (ha : Yields Γ Δ k a τ k') :
    Runs Γ Δ k .glob name [.symbol x, a] .none { k' with vars := x :: k'.vars } := by
  filter_upwards [ha] with n ha g hp hk
  refine (Gives.symbolInit (ha g hp hk)).bind ?_
  rintro ⟨_, v, g₁⟩ ⟨rfl, hv, hk₁, hs₁⟩
  obtain ⟨hk₂, hs₂⟩ := hk₁.create (hv.trans hx)
  exact ⟨rfl, hk₂, hs₁.trans hs₂⟩

theorem runs_set (hx : τ = Γ x) (hmem : x ∈ k'.vars) (ha : Yields Γ Δ k a τ k') :
    Runs Γ Δ k .set name [.symbol x, a] .none k' := by
  filter_upwards [ha] with n ha g hp hk
  refine (Gives.symbolInit (ha g hp hk)).bind ?_
  rintro ⟨_, v, g₁⟩ ⟨rfl, hv, hk₁, hs₁⟩
  obtain ⟨scope, hset, hk₂, hs₂⟩ := hk₁.set (hk₁.vars _ hmem) (hv.trans hx)
  exact gives_ok_bind hset ⟨rfl, hk₂, hs₁.trans hs₂⟩

theorem runs_typename (hx : x ∈ k.vars) : Runs Γ Δ k .typename name [.symbol x] .string k := by
  refine .of_forall fun n g _ hk => ?_
  obtain ⟨v, hv, -⟩ := hk.get hx
  have hrun : Form.typename.run (execExpr n) [.symbol name, .symbol x] g name =
      .ok (typename v, g) := by
    change (getVariable g.scope x).map _ = _
    rw [hv]
    rfl
  rw [hrun]
  refine ⟨?_, hk, .refl g⟩
  cases v <;> rfl

/-- A call of a function that has been checked. -/
theorem runs_call (hsig : sig ∈ Δ) (hsound : sig.Sound Γ Δ) (hname : sig.fn.fnName = name)
    (hret : sig.after.ret = some τ) (hneeds : ∀ x ∈ sig.needs, x ∈ k₁.vars)
    (h : YieldsAll Γ Δ k args (List.replicate sig.fn.params.length .int) k₁) :
    Runs Γ Δ k .call name args τ ⟨sig.after.vars ++ k₁.vars, some τ⟩ := by
  obtain ⟨hparams, τs, hbody⟩ := hsound
  have hitems (j : Nat) (e : Expr) (he : args[j]? = some e) :
      (Expr.symbol name :: args)[0 + j + 1]? = some e := by
    rw [Nat.zero_add]
    exact he
  have hbind := h.bindParams hparams hitems
  filter_upwards [hbind, hbody.runBody] with n hbind hbody g hp hk
  have hfind : findFunction g.scope name = some sig.fn := hname ▸ hp sig hsig
  rw [Form.run, execCall, hfind]
  refine (hbind g _ rfl hp hk).bind ?_
  rintro g₁ ⟨⟨hk₁, hs₁⟩, hin⟩
  have hk₁' : Knows Γ ⟨sig.fn.params ++ sig.needs, none⟩ g₁ := by
    refine ⟨hk₁.typed, fun x hx => ?_, fun σ hσ => by cases hσ⟩
    rcases List.mem_append.mp hx with hx | hx
    · exact hin x hx
    · exact hk₁.vars x (hneeds x hx)
  have hcapac : g₁.scope.functions.capac = g.scope.functions.capac := by rw [hs₁.functions]
  refine (hbody g₁ _ hcapac (hp.stays hs₁) hk₁').bind ?_
  rintro g₂ ⟨hk₂, hs₂⟩
  refine ⟨hk₂.ret τ hret, ⟨hk₂.typed, fun x hx => ?_, fun σ hσ => ?_⟩, hs₁.trans hs₂⟩
  · rcases List.mem_append.mp hx with hx | hx
    · exact hk₂.vars x hx
    · exact hs₂.vars (hk₁.vars x hx)
  · cases hσ
    exact hk₂.ret _ hret

/-! ### The check is sound -/

/-- A list with a name at its head does what the form of that name does. -/
theorem execExpr_symbol (n : Nat) (name : List UInt8) (items : List Expr) (g : Globals) :
    execExpr (n + 1) (.list (.symbol name :: items)) g =
      (formOf name).run (execExpr n) (.symbol name :: items) g name :=
  execForm_formOf (execExpr n) (.symbol name :: items) g name

/-- The list of a form. -/
theorem Runs.yields (h : Runs Γ Δ k (formOf name) name args τ k') :
    Yields Γ Δ k (.list (.symbol name :: args)) τ k' := by
  obtain ⟨N, hN⟩ := eventually_atTop.mp h
  refine eventually_atTop.mpr ⟨N + 1, fun n hn g hp hk => ?_⟩
  obtain ⟨m, rfl⟩ : ∃ m, n = m + 1 := ⟨n - 1, by omega⟩
  rw [execExpr_symbol]
  exact hN m (Nat.le_of_succ_le_succ hn) g hp hk

theorem checkForm_sound (hΔ : ∀ sig ∈ Δ, sig.Sound Γ Δ) (h : YieldsAll Γ Δ k args τs k₁)
    (hc : checkForm Δ name k₁ (formOf name) τs = some (τ, k')) :
    Runs Γ Δ k (formOf name) name args τ k' := by
  generalize hform : formOf name = form at hc ⊢
  unfold checkForm at hc
  split at hc
  · cases hc
    obtain _ | ⟨ha, _ | ⟨hb, _ | _⟩⟩ := h
    exact runs_math hform ha hb
  · cases hc
    obtain _ | ⟨ha, _ | ⟨hb, _ | ⟨hc, _ | _⟩⟩⟩ := h
    exact runs_rgb ha hb hc
  · cases hc
    obtain _ | ⟨ha, _ | _⟩ := h
    exact runs_print (.inl rfl) ha
  · cases hc
    obtain _ | ⟨ha, _ | _⟩ := h
    exact runs_print (.inr rfl) ha
  · cases hc
    obtain _ | ⟨ha, _ | _⟩ := h
    exact runs_sin ha
  · cases hc
    obtain _ | ⟨ha, _ | _⟩ := h
    exact runs_ret ha
  · obtain ⟨sig, hsig, hc⟩ := Option.bind_eq_some_iff.mp hc
    obtain ⟨σ, hσ, hc⟩ := Option.bind_eq_some_iff.mp hc
    split at hc
    · next hargs =>
        cases hc
        obtain ⟨rfl, hneeds⟩ := hargs
        have hmem := List.mem_of_find?_eq_some hsig
        exact runs_call hmem (hΔ sig hmem) (by simpa using List.find?_some hsig) hσ
          (of_decide_eq_true hneeds) h
    · cases hc
  · cases hc

theorem checkInit_sound (h : YieldsAll Γ Δ k args τs k₁)
    (hc : checkInit Γ x k₁ form τs = some (τ, k')) :
    Runs Γ Δ k form name (.symbol x :: args) τ k' := by
  unfold checkInit at hc
  split at hc
  · obtain _ | ⟨ha, _ | _⟩ := h
    split at hc
    · next hx =>
        cases hc
        exact runs_glob hx ha
    · cases hc
  · obtain _ | ⟨ha, _ | _⟩ := h
    split at hc
    · next hx =>
        cases hc
        exact runs_set hx.1 hx.2 ha
    · cases hc
  · cases h
    split at hc
    · next hx =>
        cases hc
        exact runs_typename hx
    · cases hc
  · cases hc

mutual

theorem checkExpr_sound (hΔ : ∀ sig ∈ Δ, sig.Sound Γ Δ) : ∀ (e : Expr) {k k' : Known} {τ : Ty},
    checkExpr Γ Δ e k = some (τ, k') → Yields Γ Δ k e τ k'
  | .int w, k, k', τ, h => by
      cases h
      exact .of_forall fun n g _ hk => by
        cases n <;> exact ⟨rfl, hk, .refl g⟩
  | .string s, k, k', τ, h => by
      cases h
      exact .of_forall fun n g _ hk => by
        cases n <;> exact ⟨rfl, hk, .refl g⟩
  | .symbol s, k, k', τ, h => by
      rw [checkExpr] at h
      split at h
      · next hs =>
          cases h
          refine .of_forall fun n g _ hk => ?_
          obtain ⟨v, hv, hty⟩ := hk.get hs
          have hexec : execExpr n (.symbol s) g = .ok (v, g) := by
            cases n <;> simp [execExpr, hv, Except.map]
          rw [hexec]
          exact ⟨hty, hk, .refl g⟩
      · cases h
  | .list items, k, k', τ, h => checkList_sound hΔ items h

theorem checkList_sound (hΔ : ∀ sig ∈ Δ, sig.Sound Γ Δ) : ∀ (items : List Expr) {k k' : Known}
    {τ : Ty}, checkList Γ Δ items k = some (τ, k') → Yields Γ Δ k (.list items) τ k'
  | [], k, k', τ, h => by cases h
  | .symbol name :: args, k, k', τ, h => by
      rw [checkList] at h
      split at h
      · exact (checkBinding_sound hΔ args h).yields
      · obtain ⟨⟨τs, k₁⟩, hargs, h⟩ := Option.bind_eq_some_iff.mp h
        exact (checkForm_sound hΔ (checkArgs_sound hΔ args hargs) h).yields
  | .int _ :: _, _, _, _, h | .string _ :: _, _, _, _, h | .list _ :: _, _, _, _, h => by cases h

theorem checkBinding_sound (hΔ : ∀ sig ∈ Δ, sig.Sound Γ Δ) : ∀ (args : List Expr) {form : Form}
    {name : List UInt8} {k k' : Known} {τ : Ty}, checkBinding Γ Δ form args k = some (τ, k') →
    Runs Γ Δ k form name args τ k'
  | [], form, name, k, k', τ, h => by cases h
  | .symbol x :: args, form, name, k, k', τ, h => by
      rw [checkBinding] at h
      obtain ⟨⟨τs, k₁⟩, hargs, h⟩ := Option.bind_eq_some_iff.mp h
      exact checkInit_sound (checkArgs_sound hΔ args hargs) h
  | .int _ :: _, _, _, _, _, _, h | .string _ :: _, _, _, _, _, _, h
  | .list _ :: _, _, _, _, _, _, h => by cases h

theorem checkArgs_sound (hΔ : ∀ sig ∈ Δ, sig.Sound Γ Δ) : ∀ (es : List Expr) {k k' : Known}
    {τs : List Ty}, checkArgs Γ Δ es k = some (τs, k') → YieldsAll Γ Δ k es τs k'
  | [], k, k', τs, h => by
      cases h
      exact .nil k
  | e :: es, k, k', τs, h => by
      rw [checkArgs] at h
      obtain ⟨⟨τ, k₁⟩, he, h⟩ := Option.bind_eq_some_iff.mp h
      obtain ⟨⟨τs', k₂⟩, hes, h⟩ := Option.bind_eq_some_iff.mp h
      cases h
      exact .cons (checkExpr_sound hΔ e he) (checkArgs_sound hΔ es hes)

end

end Lisp
end RivOS
