import Mathlib.Logic.Function.Basic
import RivOS.Lisp.Variables

/-!
# Lisp — Arguments

The parameters of a user function are global variables (`sbinSrc/de/lisp/lisp.c`, `execList`): the
loop over them creates one, evaluates its argument and sets it, and goes on to the next.  An
argument is evaluated where the parameters before it have already been set.

* `bodyStart_iff`: where the body starts, every parameter holds the value its argument had before
  the call, exactly if no argument is disturbed by the parameters set before it.
-/

namespace RivOS

namespace Lisp

/-- A parameter and its argument. -/
abbrev Binding := List UInt8 × Arith

/-- The state in which the body of a user function starts. -/
def bodyStart (exec : Eval) (items : List Expr) (g : Globals) (name : List UInt8) :
    Except Stop Globals :=
  match findFunction g.scope name with
  | none => .error (.hang "Vela: Unknown function")
  | some fnEntry => bindParams exec items g.scope.functions.capac 0 fnEntry.params g

/-- Every argument has a value in `ρ`, and has the same value where the parameters before it have
been set to the values of their arguments in `ρ`; `σ` is what the variables hold at the first. -/
def Undisturbed (ρ σ : List UInt8 → Word) : List Binding → Prop
  | [] => True
  | (p, e) :: bs =>
      ¬ e.Overflows ρ ∧ ¬ e.Overflows σ ∧ e.value σ = e.value ρ ∧
        Undisturbed ρ (Function.update σ p (e.value ρ)) bs

variable {ρ σ : List UInt8 → Word} {g g' : Globals} {n i capac : Nat} {items : List Expr}
  {p name : List UInt8} {e : Arith} {bs : List Binding} {fn : FunctionEntry}

/-- A call is its bindings, and then the body. -/
theorem execCall_bodyStart {exec : Eval} (hfn : findFunction g.scope name = some fn) :
    execCall exec items g name = bodyStart exec items g name >>= fun g' =>
      runBody exec g.scope.functions.capac fn.body g' >>= fun g' =>
        .ok (g'.lastReturnvalue, g') := by
  rw [execCall, bodyStart, hfn]

/-! ### One parameter -/

/-- A parameter whose argument traps. -/
theorem bindParams_overflow (ps : List (List UInt8)) (hitem : items[i + 1]? = some e.toExpr)
    (hdef : Defined σ g e.vars) (hov : e.Overflows σ) (hn : e.depth ≤ n) :
    bindParams (execExpr n) items capac i (p :: ps) g = .error .divideError := by
  have hdef' : Defined σ { g with scope := createVariable g.scope p (.int 0) } e.vars :=
    fun x hx => getVariable_created (hdef x hx)
  rw [bindParams, itemAt, hitem]
  simp only [ok_bind, execExpr_overflow hdef' hov hn]
  rfl

/-- A parameter gets the value its argument has at that point. -/
theorem bindParams_cons (ps : List (List UInt8)) (hitem : items[i + 1]? = some e.toExpr)
    (hdef : Defined σ g e.vars) (hov : ¬ e.Overflows σ) (hn : e.depth ≤ n)
    (hcapac : g.scope.functions.capac = capac) :
    ∃ g₁, bindParams (execExpr n) items capac i (p :: ps) g
        = bindParams (execExpr n) items capac (i + 1) ps g₁ ∧
      g₁.scope.functions.capac = capac ∧
      ∀ x, getVariable g₁.scope x
        = if x = p then .ok (.int (e.value σ)) else getVariable g.scope x := by
  have hdef' : Defined σ { g with scope := createVariable g.scope p (.int 0) } e.vars :=
    fun x hx => getVariable_created (hdef x hx)
  obtain ⟨s, hset, hfns, helems⟩ := createVariable_set g.scope p (.int (e.value σ))
  have hcreated : (createVariable g.scope p (.int 0)).functions.capac = capac := by
    rw [createVariable]
    split <;> exact hcapac
  refine ⟨{ g with scope := s }, ?_, by rw [hfns, hcapac], getVariable_upsert helems⟩
  rw [bindParams, itemAt, hitem]
  simp only [ok_bind, execExpr_value hdef' hov hn, alive, hcreated, if_true, hset]

theorem Defined.update {names : List (List UInt8)} {v : Word} (h : Defined σ g names)
    (hvar : ∀ x, getVariable g'.scope x
      = if x = p then .ok (.int v) else getVariable g.scope x) :
    Defined (Function.update σ p v) g' names := by
  intro x hx
  rw [hvar]
  by_cases e : x = p
  · rw [if_pos e, e, Function.update_self]
  · rw [if_neg e, Function.update_of_ne e, h x hx]

/-! ### The loop over the parameters -/

/-- The parameters of the bindings. -/
def names (bs : List Binding) : List (List UInt8) := bs.map Prod.fst

/-- The arguments of the bindings stand in the list from the `i`th place behind its head on, and
can be evaluated. -/
structure Ready (items : List Expr) (i n : Nat) (σ : List UInt8 → Word) (g : Globals)
    (bs : List Binding) : Prop where
  items_eq : items.drop (i + 1) = bs.map fun b => b.2.toExpr
  defined : ∀ b ∈ bs, Defined σ g b.2.vars
  depth_le : ∀ b ∈ bs, b.2.depth ≤ n

theorem Ready.head (h : Ready items i n σ g ((p, e) :: bs)) :
    items[i + 1]? = some e.toExpr ∧ Defined σ g e.vars ∧ e.depth ≤ n := by
  refine ⟨?_, h.defined (p, e) (by simp), h.depth_le (p, e) (by simp)⟩
  have := congrArg List.head? h.items_eq
  simpa using this

theorem Ready.tail {v : Word} (h : Ready items i n σ g ((p, e) :: bs))
    (hvar : ∀ x, getVariable g'.scope x
      = if x = p then .ok (.int v) else getVariable g.scope x) :
    Ready items (i + 1) n (Function.update σ p v) g' bs := by
  refine ⟨?_, fun b hb => (h.defined b (by simp [hb])).update hvar,
    fun b hb => h.depth_le b (by simp [hb])⟩
  have := congrArg List.tail h.items_eq
  simpa [List.tail_drop] using this

/-- One binding, whatever its argument is worth. -/
theorem Ready.step (h : Ready items i n σ g ((p, e) :: bs)) (hov : ¬ e.Overflows σ)
    (hcapac : g.scope.functions.capac = capac) :
    ∃ g₁, bindParams (execExpr n) items capac i (names ((p, e) :: bs)) g
        = bindParams (execExpr n) items capac (i + 1) (names bs) g₁ ∧
      g₁.scope.functions.capac = capac ∧
      Ready items (i + 1) n (Function.update σ p (e.value σ)) g₁ bs ∧
      ∀ x, getVariable g₁.scope x
        = if x = p then .ok (.int (e.value σ)) else getVariable g.scope x := by
  obtain ⟨hitem, hdef, hn⟩ := h.head
  obtain ⟨g₁, hstep, hcapac₁, hvar⟩ := bindParams_cons (names bs) hitem hdef hov hn hcapac
  exact ⟨g₁, hstep, hcapac₁, h.tail hvar, hvar⟩

/-- The bindings leave every other variable. -/
theorem Ready.frame (h : Ready items i n σ g bs) (hcapac : g.scope.functions.capac = capac)
    (hrun : bindParams (execExpr n) items capac i (names bs) g = .ok g') {x : List UInt8}
    (hx : x ∉ names bs) : getVariable g'.scope x = getVariable g.scope x := by
  induction bs generalizing i σ g with
  | nil => cases hrun; rfl
  | cons b bs ih =>
      obtain ⟨p, e⟩ := b
      obtain ⟨hxp, hxbs⟩ : x ≠ p ∧ x ∉ names bs := by simpa [names] using hx
      by_cases hov : e.Overflows σ
      · obtain ⟨hitem, hdef, hn⟩ := h.head
        cases (bindParams_overflow (names bs) hitem hdef hov hn).symm.trans hrun
      · obtain ⟨g₁, hstep, hcapac₁, hready, hvar⟩ := h.step hov hcapac
        rw [ih hready hcapac₁ (hstep ▸ hrun) hxbs, hvar, if_neg hxp]

/-- Undisturbed arguments. -/
theorem Ready.bound (h : Ready items i n σ g bs) (hcapac : g.scope.functions.capac = capac)
    (hnodup : (names bs).Nodup) (hund : Undisturbed ρ σ bs) :
    ∃ g', bindParams (execExpr n) items capac i (names bs) g = .ok g' ∧
      ∀ b ∈ bs, ¬ b.2.Overflows ρ ∧ getVariable g'.scope b.1 = .ok (.int (b.2.value ρ)) := by
  induction bs generalizing i σ g with
  | nil => exact ⟨g, rfl, by simp⟩
  | cons b bs ih =>
      obtain ⟨p, e⟩ := b
      obtain ⟨hρ, hov, hval, hrest⟩ := hund
      obtain ⟨hp, hnodup'⟩ := List.nodup_cons.mp hnodup
      obtain ⟨g₁, hstep, hcapac₁, hready, hvar⟩ := h.step hov hcapac
      obtain ⟨g', hrun, hbound⟩ := ih hready hcapac₁ hnodup' (hval ▸ hrest)
      refine ⟨g', hstep.trans hrun, List.forall_mem_cons.mpr ⟨⟨hρ, ?_⟩, hbound⟩⟩
      rw [hready.frame hcapac₁ hrun hp, hvar, if_pos rfl, hval]

/-- Where the parameters end up with the values before the call, nothing was disturbed. -/
theorem Ready.undisturbed (h : Ready items i n σ g bs) (hcapac : g.scope.functions.capac = capac)
    (hnodup : (names bs).Nodup)
    (hrun : bindParams (execExpr n) items capac i (names bs) g = .ok g')
    (hbound : ∀ b ∈ bs,
      ¬ b.2.Overflows ρ ∧ getVariable g'.scope b.1 = .ok (.int (b.2.value ρ))) :
    Undisturbed ρ σ bs := by
  induction bs generalizing i σ g with
  | nil => trivial
  | cons b bs ih =>
      obtain ⟨p, e⟩ := b
      obtain ⟨hp, hnodup'⟩ := List.nodup_cons.mp hnodup
      by_cases hov : e.Overflows σ
      · obtain ⟨hitem, hdef, hn⟩ := h.head
        cases (bindParams_overflow (names bs) hitem hdef hov hn).symm.trans hrun
      · obtain ⟨g₁, hstep, hcapac₁, hready, hvar⟩ := h.step hov hcapac
        rw [hstep] at hrun
        obtain ⟨hρ, hfinal⟩ := hbound (p, e) (by simp)
        have hval : e.value σ = e.value ρ := by
          rw [hready.frame hcapac₁ hrun hp, hvar, if_pos rfl] at hfinal
          exact Value.int.inj (Except.ok.inj hfinal)
        refine ⟨hρ, hov, hval, ?_⟩
        rw [← hval]
        exact ih hready hcapac₁ hnodup' hrun fun b hb => hbound b (by simp [hb])

/-! ### The call -/

/-- `(name e₁ ... eₙ)`. -/
def callItems (name : List UInt8) (bs : List Binding) : List Expr :=
  .symbol name :: bs.map fun b => b.2.toExpr

/-- The body starts, every argument has a value in `ρ`, and its parameter holds it. -/
def StartsBound (n : Nat) (name : List UInt8) (g : Globals) (ρ : List UInt8 → Word)
    (bs : List Binding) : Prop :=
  ∃ g', bodyStart (execExpr n) (callItems name bs) g name = .ok g' ∧
    ∀ b ∈ bs, ¬ b.2.Overflows ρ ∧ getVariable g'.scope b.1 = .ok (.int (b.2.value ρ))

/-- **When the parameters hold the values the arguments had before the call**: no argument is
disturbed by the parameters set before it. -/
theorem bodyStart_iff (hfn : findFunction g.scope name = some fn) (hparams : fn.params = names bs)
    (hnodup : fn.params.Nodup) (hdef : ∀ b ∈ bs, Defined ρ g b.2.vars)
    (hn : ∀ b ∈ bs, b.2.depth ≤ n) :
    StartsBound n name g ρ bs ↔ Undisturbed ρ ρ bs := by
  have hready : Ready (callItems name bs) 0 n ρ g bs := ⟨rfl, hdef, hn⟩
  have hstart : bodyStart (execExpr n) (callItems name bs) g name
      = bindParams (execExpr n) (callItems name bs) g.scope.functions.capac 0 (names bs) g := by
    rw [bodyStart, hfn, ← hparams]
  rw [hparams] at hnodup
  rw [StartsBound, hstart]
  constructor
  · rintro ⟨g', hrun, hbound⟩
    exact hready.undisturbed rfl hnodup hrun hbound
  · exact hready.bound rfl hnodup

/-! ### Arguments that no parameter disturbs -/

theorem Arith.value_congr (h : ∀ x ∈ e.vars, σ x = ρ x) : e.value σ = e.value ρ := by
  induction e with
  | lit v => rfl
  | var x => exact h x (by simp [Arith.vars])
  | op o a b iha ihb =>
      rw [Arith.value, Arith.value, iha fun x hx => h x (List.mem_append_left _ hx),
        ihb fun x hx => h x (List.mem_append_right _ hx)]

theorem Arith.overflows_congr (h : ∀ x ∈ e.vars, σ x = ρ x) : e.Overflows σ ↔ e.Overflows ρ := by
  induction e with
  | lit v => exact Iff.rfl
  | var x => exact Iff.rfl
  | op o a b iha ihb =>
      have ha : ∀ x ∈ a.vars, σ x = ρ x := fun x hx => h x (List.mem_append_left _ hx)
      have hb : ∀ x ∈ b.vars, σ x = ρ x := fun x hx => h x (List.mem_append_right _ hx)
      rw [Arith.Overflows, Arith.Overflows, iha ha, ihb hb, value_congr ha, value_congr hb]

/-- Enough: no argument mentions a parameter that stands before it. -/
theorem undisturbed_of_vars (hσ : ∀ b ∈ bs, ∀ x ∈ b.2.vars, σ x = ρ x)
    (hov : ∀ b ∈ bs, ¬ b.2.Overflows ρ)
    (hvars : bs.Pairwise fun b c => b.1 ∉ c.2.vars) : Undisturbed ρ σ bs := by
  induction bs generalizing σ with
  | nil => trivial
  | cons b bs ih =>
      obtain ⟨p, e⟩ := b
      obtain ⟨hp, hvars'⟩ := List.pairwise_cons.mp hvars
      obtain ⟨he, hσ'⟩ := List.forall_mem_cons.mp hσ
      obtain ⟨hρ, hov'⟩ := List.forall_mem_cons.mp hov
      refine ⟨hρ, mt (Arith.overflows_congr he).mp hρ, Arith.value_congr he, ih ?_ hov' hvars'⟩
      intro c hc x hx
      have hne : x ≠ p := fun e => hp c hc (e ▸ hx)
      rw [Function.update_of_ne hne, hσ' c hc x hx]

/-! ### Two calls -/

/-- `(defun f (x y) (ret x))`, where `x` is 1 and `y` is 2. -/
def someCaller : Globals :=
  let env := addFunction enviromentInit [102] [[120], [121]]
    [.list [.symbol (ascii ['r', 'e', 't']), .symbol [120]]]
  ⟨createVariable (createVariable env [120] (.int 1)) [121] (.int 2), .none⟩

def someVars (x : List UInt8) : Word := if x = [120] then 1 else 2

theorem defined_someCaller {names : List (List UInt8)} (h : ∀ x ∈ names, x = [120] ∨ x = [121]) :
    Defined someVars someCaller names := by
  intro x hx
  rcases h x hx with rfl | rfl
  · rfl
  · rfl

/-- `(f x y)`. -/
theorem startsBound_in_order :
    StartsBound 0 [102] someCaller someVars [([120], .var [120]), ([121], .var [121])] := by
  refine (bodyStart_iff rfl rfl (by decide) ?_ ?_).mpr ?_
  · exact List.forall_mem_cons.mpr ⟨defined_someCaller (by simp [Arith.vars]),
      by simpa using defined_someCaller (by simp [Arith.vars])⟩
  · simp [Arith.depth]
  · exact undisturbed_of_vars (fun b _ x _ => rfl) (by simp [Arith.Overflows])
      (by simp [Arith.vars])

/-- `(f y x)`: both parameters hold 2. -/
theorem startsBound_swapped :
    ¬ ∀ (n : Nat) (name : List UInt8) (g : Globals) (ρ : List UInt8 → Word) (bs : List Binding)
      (fn : FunctionEntry), findFunction g.scope name = some fn → fn.params = names bs →
      fn.params.Nodup → (∀ b ∈ bs, Defined ρ g b.2.vars) → (∀ b ∈ bs, ¬ b.2.Overflows ρ) →
      (∀ b ∈ bs, b.2.depth ≤ n) → StartsBound n name g ρ bs := by
  intro h
  have hstart := h 0 [102] someCaller someVars [([120], .var [121]), ([121], .var [120])] _ rfl rfl
    (by decide)
    (List.forall_mem_cons.mpr ⟨defined_someCaller (by simp [Arith.vars]),
      by simpa using defined_someCaller (by simp [Arith.vars])⟩)
    (by simp [Arith.Overflows]) (by simp [Arith.depth])
  obtain ⟨g', hrun, hbound⟩ := hstart
  cases hrun
  have := (hbound ([121], .var [120]) (by simp)).2
  exact absurd this (by decide)

end Lisp
end RivOS
