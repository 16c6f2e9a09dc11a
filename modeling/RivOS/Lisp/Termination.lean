import RivOS.Lisp.CallGraph
import RivOS.Lisp.Render

/-!
# Lisp — Texts whose runs end

`lispRun` (`sbinSrc/de/lisp/lisp.c`) over a text in which no function is recursive.  Which functions
there can be is read off the text (`defuns`), and so is who calls whom: a name may lead to any
function of the text that has it.  The calls then go down an order without cycles, and a bound that
is enough for the functions that are called gives one for the function that calls.

* `grounded_of_calls`: some bound is enough for an expression if there is one for every function it
  calls, by the size of the expression.
* `lispRun_ends`: a run over a text without recursive functions ends.
-/

namespace RivOS

namespace Lisp

open Relation Filter

/-- The expressions that begin at a token. -/
def expressions (tokens : Vector Token) : List Expr :=
  (List.range tokens.size).filterMap fun pos => (parseExpr tokens pos).toOption.map Prod.fst

/-- The functions that expressions can register. -/
def defuns (es : List Expr) : List FunctionEntry := (partsAll es).filterMap Expr.entry

/-- A name leads to any of the functions that have it. -/
def Named (D : List FunctionEntry) : Leads := fun name fn => fn ∈ D ∧ fn.fnName = name

/-- From some bound on the expression does not come to it, whatever of the functions is there. -/
def Grounded (D : List FunctionEntry) (e : Expr) : Prop :=
  ∀ᶠ n in atTop, ∀ g, Comes (· ∈ D) g → execExpr n e g ≠ .error .fuel

variable {A : FunctionEntry → Prop} {L : Leads} {exec : Eval} {items es : List Expr} {e p q : Expr}
  {g : Globals} {name : List UInt8} {n i capac : Nat} {ps : List (List UInt8)} {fn : FunctionEntry}
  {form : Form} {tokens : Vector Token} {D : List FunctionEntry}

/-! ### The functions of a text -/

mutual

theorem parts_trans : ∀ {e p q : Expr}, p ∈ e.parts → q ∈ p.parts → q ∈ e.parts
  | .int v, p, q, hp, hq => by rwa [List.mem_singleton.mp hp] at hq
  | .string s, p, q, hp, hq => by rwa [List.mem_singleton.mp hp] at hq
  | .symbol s, p, q, hp, hq => by rwa [List.mem_singleton.mp hp] at hq
  | .list items, p, q, hp, hq => by
      rcases List.mem_cons.mp hp with rfl | hp
      · exact hq
      · exact .tail _ (partsAll_trans hp hq)

theorem partsAll_trans : ∀ {es : List Expr} {p q : Expr}, p ∈ partsAll es → q ∈ p.parts →
    q ∈ partsAll es
  | e :: es, p, q, hp, hq => by
      rcases List.mem_append.mp hp with hp | hp
      · exact List.mem_append_left _ (parts_trans hp hq)
      · exact List.mem_append_right _ (partsAll_trans hp hq)

end

theorem covers_defuns (h : p ∈ partsAll es) : Covers (· ∈ defuns es) p :=
  fun q hq _ hfn => List.mem_filterMap.mpr ⟨q, partsAll_trans h hq, hfn⟩

theorem body_parts {b : Expr} (h : e.entry = some fn) (hb : b ∈ fn.body) : b ∈ e.parts := by
  rw [Expr.entry.eq_def] at h
  split at h
  · next name fnName args first rest =>
      split at h
      · obtain ⟨params, -, rfl⟩ := Option.map_eq_some_iff.mp h
        exact parts_item (List.mem_cons_of_mem _ (List.mem_cons_of_mem _
          (List.mem_cons_of_mem _ hb))) (self_mem_parts b)
      · cases h
  · cases h

theorem supplied_defuns (es : List Expr) : Supplied (· ∈ defuns es) := by
  intro fn hfn b hb
  obtain ⟨p, hp, hentry⟩ := List.mem_filterMap.mp hfn
  exact covers_defuns (partsAll_trans hp (body_parts hentry hb))

/-! ### Forms -/

theorem execAll_ne_cons : execAll exec (e :: es) g ≠ .error .fuel ↔
    exec e g ≠ .error .fuel ∧
      ∀ v g₁, exec e g = .ok (v, g₁) → execAll exec es g₁ ≠ .error .fuel := by
  rw [execAll, List.foldlM_cons]
  constructor
  · intro h
    refine ⟨fun he => h ?_, fun v g₁ he hes => h ?_⟩
    · rw [he]
      rfl
    · rw [he]
      exact hes
  · rintro ⟨he, hes⟩
    refine bind_ne_error (map_ne_error he) fun g₁ hg₁ => ?_
    obtain ⟨⟨v, g₂⟩, hexec, rfl⟩ := map_eq_ok.mp hg₁
    exact hes v g₂ hexec

theorem execAll_ne_fuel (hx : Changes A exec) (hes : ∀ e ∈ es, Covers A e)
    (h : ∀ e ∈ es, ∀ g, Comes A g → exec e g ≠ .error .fuel) (hg : Comes A g) :
    execAll exec es g ≠ .error .fuel := by
  induction es generalizing g with
  | nil => nofun
  | cons e es ih =>
      obtain ⟨hce, hces⟩ := List.forall_mem_cons.mp hes
      obtain ⟨he, hes'⟩ := List.forall_mem_cons.mp h
      exact execAll_ne_cons.mpr ⟨he g hg, fun v g₁ hexec =>
        ih hces hes' (Updates.comes (hx hce hg hexec) hg)⟩

/-- The one operand of a form. -/
theorem execAll_ne_item (h : execAll exec ([i].filterMap (items[·]?)) g ≠ .error .fuel)
    (he : itemAt items i = .ok e) : exec e g ≠ .error .fuel := by
  rw [List.filterMap_cons_some (itemAt_eq_ok.mp he)] at h
  exact (execAll_ne_cons.mp h).1

theorem execMath_ne_fuel (h : execAll exec (Form.math.operands items) g ≠ .error .fuel) :
    execMath exec items g name ≠ .error .fuel := by
  refine bind_ne_error itemAt_ne_fuel fun a ha => bind_ne_error itemAt_ne_fuel fun b hb => ?_
  have hops : Form.math.operands items = [a, b] := by
    simp [Form.operands, itemAt_eq_ok.mp ha, itemAt_eq_ok.mp hb]
  rw [hops] at h
  obtain ⟨hea, h⟩ := execAll_ne_cons.mp h
  refine bind_ne_error hea fun r hr => ?_
  refine bind_ne_error (execAll_ne_cons.mp (h r.1 r.2 hr)).1 fun q _ => ?_
  dsimp only
  split
  · exact map_ne_error mathOp_ne_fuel
  · simp

theorem symbolInit_ne_fuel (msg : String)
    (h : execAll exec ([2].filterMap (items[·]?)) g ≠ .error .fuel) :
    symbolInit exec items g msg ≠ .error .fuel := by
  refine bind_ne_error itemAt_ne_fuel fun symb _ => bind_ne_error itemAt_ne_fuel fun e he => ?_
  cases symb with
  | symbol s => exact map_ne_error (execAll_ne_item h he)
  | _ => nofun

theorem execRgb_ne_fuel (h : execAll exec (Form.rgb.operands items) g ≠ .error .fuel) :
    execRgb exec items g ≠ .error .fuel := by
  refine bind_ne_error itemAt_ne_fuel fun a ha => bind_ne_error itemAt_ne_fuel fun b hb =>
    bind_ne_error itemAt_ne_fuel fun c hc => ?_
  have hops : Form.rgb.operands items = [a, b, c] := by
    simp [Form.operands, itemAt_eq_ok.mp ha, itemAt_eq_ok.mp hb, itemAt_eq_ok.mp hc]
  rw [hops] at h
  obtain ⟨hea, h⟩ := execAll_ne_cons.mp h
  refine bind_ne_error hea fun r hr => ?_
  obtain ⟨heb, h⟩ := execAll_ne_cons.mp (h r.1 r.2 hr)
  refine bind_ne_error heb fun q hq => ?_
  exact bind_ne_error (execAll_ne_cons.mp (h q.1 q.2 hq)).1 fun _ _ => ok_ne_error

theorem execDefun_ne_fuel : execDefun items g ≠ .error .fuel := by
  refine bind_ne_error itemAt_ne_fuel fun fname _ => bind_ne_error itemAt_ne_fuel fun args _ => ?_
  split
  · exact bind_ne_error (paramNames_ne_fuel _) fun _ _ =>
      bind_ne_error itemAt_ne_fuel fun _ _ => ok_ne_error
  · nofun
  · nofun

theorem execTypename_ne_fuel : execTypename items g ≠ .error .fuel := by
  refine bind_ne_error itemAt_ne_fuel fun arg _ => ?_
  split
  · exact map_ne_error getVariable_ne_fuel
  · nofun

theorem execSin_ne_fuel (h : execAll exec (Form.sin.operands items) g ≠ .error .fuel) :
    execSin exec items g ≠ .error .fuel := by
  refine bind_ne_error itemAt_ne_fuel fun e he =>
    bind_ne_error (execAll_ne_item h he) fun ⟨v, g₁⟩ _ => ?_
  dsimp only
  split
  · exact map_ne_error (sinInt_ne_fuel _)
  · nofun

/-- A built-in form comes to the bound only in its operands. -/
theorem run_ne_fuel (hform : form ≠ .call)
    (h : execAll exec (form.operands items) g ≠ .error .fuel) :
    form.run exec items g name ≠ .error .fuel := by
  have one (h : execAll exec ([1].filterMap (items[·]?)) g ≠ .error .fuel)
      {f : Value × Globals → Except Stop (Value × Globals)} (hf : ∀ r, f r ≠ .error .fuel) :
      (itemAt items 1 >>= fun e => exec e g >>= f) ≠ .error .fuel :=
    bind_ne_error itemAt_ne_fuel fun e he =>
      bind_ne_error (execAll_ne_item h he) fun r _ => hf r
  cases form with
  | math => exact execMath_ne_fuel h
  | glob => exact bind_ne_error (symbolInit_ne_fuel _ h) fun _ _ => ok_ne_error
  | set =>
      exact bind_ne_error (symbolInit_ne_fuel _ h) fun _ _ =>
        bind_ne_error setVariable_ne_fuel fun _ _ => ok_ne_error
  | rgb => exact execRgb_ne_fuel h
  | print | println | ret => exact one h fun _ => nofun
  | defun => exact execDefun_ne_fuel
  | typename => exact execTypename_ne_fuel
  | sin => exact execSin_ne_fuel h
  | call => exact absurd rfl hform

/-! ### Calls -/

theorem runBody_ne_fuel (hx : Changes A exec) (hes : ∀ e ∈ es, Covers A e)
    (h : ∀ e ∈ es, ∀ g, Comes A g → exec e g ≠ .error .fuel) (hg : Comes A g) :
    runBody exec capac es g ≠ .error .fuel := by
  induction es generalizing g with
  | nil => nofun
  | cons e es ih =>
      obtain ⟨hce, hces⟩ := List.forall_mem_cons.mp hes
      obtain ⟨he, hes'⟩ := List.forall_mem_cons.mp h
      exact bind_ne_error (he g hg) fun ⟨v, g₁⟩ hexec => bind_ne_error alive_ne_fuel fun _ _ =>
        ih hces hes' (Updates.comes (hx hce hg hexec) hg)

theorem bindParams_ne_fuel (hx : Changes A exec) (hitems : ∀ e ∈ items, Covers A e)
    (h : ∀ j < ps.length, ∀ e, items[i + j + 1]? = some e → ∀ g, Comes A g →
      exec e g ≠ .error .fuel) (hg : Comes A g) :
    bindParams exec items capac i ps g ≠ .error .fuel := by
  induction ps generalizing i g with
  | nil => nofun
  | cons p ps ih =>
      have hcreate : Updates A g { g with scope := createVariable g.scope p (.int 0) } :=
        .single (.create g p (.int 0))
      refine bind_ne_error itemAt_ne_fuel fun e he => ?_
      have hitem := itemAt_eq_ok.mp he
      refine bind_ne_error (h 0 (Nat.succ_pos _) e hitem _ (hcreate.comes hg))
        fun ⟨v, g₁⟩ hexec => ?_
      refine bind_ne_error alive_ne_fuel fun _ _ => bind_ne_error setVariable_ne_fuel
        fun scope hset => ?_
      have hup := hx (hitems e (List.mem_of_getElem? hitem)) (hcreate.comes hg) hexec
      have hall : Updates A g _ := (hcreate.trans hup).tail (.set hset)
      refine ih (fun j hj e' he' => h (j + 1) (Nat.succ_lt_succ hj) e' ?_) (hall.comes hg)
      rw [← he']
      congr 1
      omega

/-! ### Calls that go down -/

theorem part_mem (h : Part L (.list items) p) : p ∈ items := by
  cases h with
  | operand hmem => exact mem_operands hmem
  | argument _ _ _ hitem => exact .tail _ (List.mem_of_getElem? hitem)

theorem part_sizeOf (h : Part L e p) : sizeOf p < sizeOf e := by
  cases e with
  | list items =>
      have := List.sizeOf_lt_of_mem (part_mem h)
      rw [Expr.list.sizeOf_spec]
      omega
  | _ => cases h

theorem Part.calls (h : Part L e p) (hc : Calls L p fn) : Calls L e fn := by
  obtain ⟨name, items, hparts, hcall⟩ := hc
  exact ⟨name, items, hparts.head h, hcall⟩

theorem Part.covers (h : Part L e p) (he : Covers A e) : Covers A p := by
  cases e with
  | list items => exact he.item (part_mem h)
  | _ => cases h

theorem Calls.mem (h : Calls (Named D) e fn) : fn ∈ D := by
  obtain ⟨name, items, -, -, hfn, -⟩ := h
  exact hfn

/-- A list with a bound that is enough for its parts, and for the functions it calls. -/
theorem execList_ne_fuel (hs : Supplied (· ∈ D)) (he : Covers (· ∈ D) (.list items))
    (hparts : ∀ p ∈ items, Part (Named D) (.list items) p → ∀ g, Comes (· ∈ D) g →
      execExpr n p g ≠ .error .fuel)
    (hcalls : ∀ fn ∈ D, Calls (Named D) (.list items) fn → ∀ b ∈ fn.body, ∀ g, Comes (· ∈ D) g →
      execExpr n b g ≠ .error .fuel) (hg : Comes (· ∈ D) g) :
    execList (execExpr n) items g ≠ .error .fuel := by
  have hx : Changes (· ∈ D) (execExpr n) := execExpr_updates hs n
  refine bind_ne_error itemAt_ne_fuel fun first hfirst => ?_
  cases first with
  | symbol name =>
      obtain ⟨tail, rfl⟩ := List.head?_eq_some_iff.mp
        (List.head?_eq_getElem?.trans (itemAt_eq_ok.mp hfirst))
      dsimp only
      rw [execForm_formOf]
      by_cases hcall : formOf name = .call
      · rw [hcall, Form.run, execCall]
        split
        · simp
        · next fn hfn =>
            obtain ⟨hmem, hname⟩ := comes_of_find hg hfn
            have hargs : ∀ j < fn.params.length, ∀ e, (Expr.symbol name :: tail)[0 + j + 1]? = some e →
                ∀ g, Comes (· ∈ D) g → execExpr n e g ≠ .error .fuel := by
              intro j hj e hitem
              have htail : tail[j]? = some e := by simpa using hitem
              exact hparts e (.tail _ (List.mem_of_getElem? htail))
                (.argument hcall ⟨hmem, hname⟩ hj htail)
            refine bind_ne_error (bindParams_ne_fuel hx (fun e hmem => he.item hmem) hargs hg)
              fun g₁ hbind => ?_
            have hup := bindParams_updates hx (fun e hmem => he.item hmem) hg hbind
            have hbody := hcalls fn hmem ⟨name, tail, .refl, hcall, hmem, hname⟩
            exact bind_ne_error (runBody_ne_fuel hx (hs fn hmem) hbody (Updates.comes hup hg))
              fun _ _ => ok_ne_error
      · refine run_ne_fuel hcall (execAll_ne_fuel hx (fun p hp => he.item (mem_operands hp)) ?_ hg)
        exact fun p hp => hparts p (mem_operands hp) (.operand hp)
  | _ =>
      intro h
      cases h

/-- **An expression is grounded if the functions it calls are.** -/
theorem grounded_of_calls (hs : Supplied (· ∈ D)) (he : Covers (· ∈ D) e)
    (h : ∀ fn, Calls (Named D) e fn → ∀ b ∈ fn.body, Grounded D b) : Grounded D e := by
  induction hk : sizeOf e using Nat.strongRecOn generalizing e with
  | _ k ih =>
      have hparts : ∀ p, Part (Named D) e p → Grounded D p := fun p hp =>
        ih (sizeOf p) (hk ▸ part_sizeOf hp) (hp.covers he) (fun fn hc => h fn (hp.calls hc)) rfl
      cases e with
      | list items =>
          have hitems : ∀ᶠ n in atTop, ∀ p ∈ items, Part (Named D) (.list items) p → ∀ g,
              Comes (· ∈ D) g → execExpr n p g ≠ .error .fuel := by
            refine eventually_mem fun p _ => ?_
            by_cases hp : Part (Named D) (.list items) p
            · exact (hparts p hp).mono fun n hn _ => hn
            · exact .of_forall fun n hp' => absurd hp' hp
          have hbodies : ∀ᶠ n in atTop, ∀ fn ∈ D, Calls (Named D) (.list items) fn →
              ∀ b ∈ fn.body, ∀ g, Comes (· ∈ D) g → execExpr n b g ≠ .error .fuel := by
            refine eventually_mem fun fn _ => ?_
            by_cases hc : Calls (Named D) (.list items) fn
            · exact (eventually_mem (h fn hc)).mono fun n hn _ => hn
            · exact .of_forall fun n hc' => absurd hc' hc
          refine eventually_of_succ ((hitems.and hbodies).mono fun n hn g hg => ?_)
          exact execList_ne_fuel hs he hn.1 hn.2 hg
      | symbol s =>
          refine .of_forall fun n g _ => ?_
          cases n <;> exact map_ne_error getVariable_ne_fuel
      | _ =>
          refine .of_forall fun n g _ => ?_
          cases n <;> nofun

/-- Without recursion the calls are an order that goes down. -/
theorem grounded_body (hs : Supplied (· ∈ D)) (hacyclic : ∀ fn ∈ D, ¬ Recursive (Named D) fn) :
    ∀ fn ∈ D, ∀ b ∈ fn.body, Grounded D b := by
  let r (a b : {fn // fn ∈ D}) : Prop := TransGen (CallsFn (Named D)) b.1 a.1
  have : Finite {fn // fn ∈ D} := List.finite_toSet D
  have : IsTrans _ r := ⟨fun a b c hab hbc => hbc.trans hab⟩
  have : Std.Irrefl r := ⟨fun a h => hacyclic a.1 a.2 h⟩
  have hwf : WellFounded r := Finite.wellFounded_of_trans_of_irrefl r
  intro fn hfn
  refine hwf.induction (C := fun a => ∀ b ∈ a.1.body, Grounded D b) ⟨fn, hfn⟩ fun a ih b hb => ?_
  refine grounded_of_calls hs (hs a.1 a.2 b hb) fun fn' hc b' hb' => ?_
  exact ih ⟨fn', hc.mem⟩ (.single ⟨b, hb, hc⟩) b' hb'

/-! ### The run -/

/-- A bound that is enough for every expression of a text, and for the bodies of its functions. -/
structure Enough (tokens : Vector Token) (n : Nat) : Prop where
  exprs : ∀ e ∈ expressions tokens, ∀ g, Comes (· ∈ defuns (expressions tokens)) g →
    execExpr n e g ≠ .error .fuel
  bodies : ∀ fn ∈ defuns (expressions tokens), ∀ b ∈ fn.body, ∀ g,
    Comes (· ∈ defuns (expressions tokens)) g → execExpr n b g ≠ .error .fuel

theorem eventually_enough (hacyclic : ∀ fn ∈ defuns (expressions tokens),
    ¬ Recursive (Named (defuns (expressions tokens))) fn) : ∀ᶠ n in atTop, Enough tokens n := by
  have hs := supplied_defuns (expressions tokens)
  have hbody := grounded_body hs hacyclic
  have hexpr : ∀ e ∈ expressions tokens, Grounded (defuns (expressions tokens)) e := fun e he =>
    grounded_of_calls hs (covers_defuns (mem_partsAll.mpr ⟨e, he, self_mem_parts e⟩))
      fun fn hc => hbody fn hc.mem
  have hbodies : ∀ᶠ n in atTop, ∀ fn ∈ defuns (expressions tokens), ∀ b ∈ fn.body, ∀ g,
      Comes (· ∈ defuns (expressions tokens)) g → execExpr n b g ≠ .error .fuel :=
    eventually_mem fun fn hfn => eventually_mem (hbody fn hfn)
  exact ((eventually_mem hexpr).and hbodies).mono fun n hn => ⟨hn.1, hn.2⟩

theorem mem_expressions {pos q : Nat} (h : parseExpr tokens pos = .ok (e, q))
    (hlt : pos < tokens.size) : e ∈ expressions tokens :=
  List.mem_filterMap.mpr ⟨pos, List.mem_range.mpr hlt, by rw [h]; rfl⟩

/-- What a turn of the program that comes to its end has done. -/
theorem programTurn_cases {s : Globals × Nat} {q : (Globals × Nat) ⊕ Globals}
    (h : programTurn exec tokens s = .ok q) :
    (∃ e pos v g, s.2 < tokens.size ∧ parseExpr tokens s.2 = .ok (e, pos) ∧
      exec e s.1 = .ok (v, g) ∧ q = .inl (g, pos)) ∨ q = .inr s.1 := by
  rw [programTurn] at h
  split at h
  · next hlt =>
      obtain ⟨⟨e, pos⟩, he, h⟩ := bind_eq_ok.mp h
      obtain ⟨⟨v, g⟩, hexec, h⟩ := bind_eq_ok.mp h
      cases h
      exact .inl ⟨e, pos, v, g, hlt, he, hexec, rfl⟩
  · cases h
    exact .inr rfl

section

variable (h : Enough tokens n)
include h

theorem Enough.programTurn {s : Globals × Nat} (hs : Comes (· ∈ defuns (expressions tokens)) s.1) :
    programTurn (execExpr n) tokens s ≠ .error .fuel := by
  rw [Lisp.programTurn]
  split
  · next hlt =>
      exact bind_ne_error parseExpr_ne_fuel fun r hr =>
        bind_ne_error (h.exprs r.1 (mem_expressions hr hlt) s.1 hs) fun _ _ => ok_ne_error
  · simp

omit h in
/-- A turn registers only functions of the text. -/
theorem programTurn_comes {s t : Globals × Nat}
    (hs : Comes (· ∈ defuns (expressions tokens)) s.1)
    (ht : Lisp.programTurn (execExpr n) tokens s = .ok (.inl t)) :
    Comes (· ∈ defuns (expressions tokens)) t.1 := by
  have hx : Changes (· ∈ defuns (expressions tokens)) (execExpr n) :=
    execExpr_updates (supplied_defuns _) n
  rcases programTurn_cases ht with ⟨e, pos, v, g, hlt, he, hexec, hq⟩ | hq
  · cases hq
    have hmem := mem_expressions he hlt
    have hcov := covers_defuns (mem_partsAll.mpr ⟨e, hmem, self_mem_parts e⟩)
    exact Updates.comes (hx hcov hs hexec) hs
  · cases hq

/-- The expressions of the text. -/
theorem Enough.runProgram (hg : Comes (· ∈ defuns (expressions tokens)) g) :
    runProgram (execExpr n) tokens g ≠ .error .fuel ∧
      ∀ g', Lisp.runProgram (execExpr n) tokens g = .ok g' →
        Comes (· ∈ defuns (expressions tokens)) g' := by
  refine ⟨loop_ne_out_inv (shrinks_programTurn _ _) programTurn_comes (fun s => h.programTurn) hg,
    fun g' => loop_inv programTurn_comes (fun hs hleave => ?_) hg⟩
  rcases programTurn_cases hleave with ⟨e, pos, v, g, -, -, -, hq⟩ | hq
  · cases hq
  · cases hq
    exact hs

theorem Enough.pixel {func : FunctionEntry} (hfunc : func ∈ defuns (expressions tokens))
    {s : Globals × List Pixel} (hs : Comes (· ∈ defuns (expressions tokens)) s.1) (x y : Nat) :
    pixel (execExpr n) func capac s x y ≠ .error .fuel ∧
      ∀ t, Lisp.pixel (execExpr n) func capac s x y = .ok t →
        Comes (· ∈ defuns (expressions tokens)) t.1 := by
  have hx : Changes (· ∈ defuns (expressions tokens)) (execExpr n) :=
    execExpr_updates (supplied_defuns _) n
  have hcov := supplied_defuns _ func hfunc
  have hset {scope scope' : Enviroment} {name : List UInt8} {v : Word}
      (h : setParam scope name v = .ok scope') : scope'.functions = scope.functions :=
    (functions_setVariable h).trans (functions_createVariable _ _ _)
  have hparams {scope scope' : Enviroment} {p q : List UInt8} {v w : Word}
      (hp : setParam s.1.scope p v = .ok scope) (hq : setParam scope q w = .ok scope') :
      Comes (· ∈ defuns (expressions tokens)) { s.1 with scope := scope' } := by
    rw [Comes, hset hq, hset hp]
    exact hs
  constructor
  · refine bind_ne_error itemAt_ne_fuel fun p _ => bind_ne_error setVariable_ne_fuel fun scope hp =>
      bind_ne_error itemAt_ne_fuel fun q _ => bind_ne_error setVariable_ne_fuel fun scope' hq => ?_
    exact bind_ne_error (runBody_ne_fuel hx hcov (h.bodies func hfunc) (hparams hp hq))
      fun _ _ => ok_ne_error
  · intro t ht
    obtain ⟨p, -, ht⟩ := bind_eq_ok.mp ht
    obtain ⟨scope, hp, ht⟩ := bind_eq_ok.mp ht
    obtain ⟨q, -, ht⟩ := bind_eq_ok.mp ht
    obtain ⟨scope', hq, ht⟩ := bind_eq_ok.mp ht
    obtain ⟨g, hbody, ht⟩ := bind_eq_ok.mp ht
    cases ht
    have hup := execAll_updates hx hcov (hparams hp hq) (runBody_execAll hbody)
    exact Updates.comes hup (hparams hp hq)

theorem Enough.render {func : FunctionEntry} (hfunc : func ∈ defuns (expressions tokens))
    (hg : Comes (· ∈ defuns (expressions tokens)) g) (w k : Nat) :
    render (execExpr n) func w k g ≠ .error .fuel := by
  let I (s : Globals × List Pixel) : Prop := Comes (· ∈ defuns (expressions tokens)) s.1
  refine bind_ne_error (foldlM_ne_error (I := I) (fun _ hs ht => ?_) (fun _ hs => ?_) hg)
    fun _ _ => ok_ne_error
  · exact foldlM_inv (P := fun _ => I) (fun hs ht => (h.pixel hfunc hs _ _).2 _ ht) hs ht
  · exact foldlM_ne_error (I := I) (fun _ hs ht => (h.pixel hfunc hs _ _).2 _ ht)
      (fun _ hs => (h.pixel hfunc hs _ _).1) hs

end

/-- The places of a screen, column by column. -/
def scan (xs ys : List Nat) : List (Word × Word) :=
  xs.flatMap fun x => ys.map fun y => (BitVec.ofNat 32 x, BitVec.ofNat 32 y)

/-- The places of the pixels. -/
def places (out : List Pixel) : List (Word × Word) := out.map fun px => (px.x, px.y)

theorem pixel_places {func : FunctionEntry} {s t : Globals × List Pixel} {x y : Nat}
    (h : pixel exec func capac s x y = .ok t) :
    places t.2 = places s.2 ++ [(BitVec.ofNat 32 x, BitVec.ofNat 32 y)] := by
  obtain ⟨p, -, h⟩ := bind_eq_ok.mp h
  obtain ⟨scope, -, h⟩ := bind_eq_ok.mp h
  obtain ⟨q, -, h⟩ := bind_eq_ok.mp h
  obtain ⟨scope', -, h⟩ := bind_eq_ok.mp h
  obtain ⟨g, -, h⟩ := bind_eq_ok.mp h
  cases h
  simp [places]

theorem column_places {func : FunctionEntry} {s t : Globals × List Pixel} {x : Nat} {ys : List Nat}
    (h : ys.foldlM (fun s y => pixel exec func capac s x y) s = .ok t) :
    places t.2 = places s.2 ++ scan [x] ys := by
  induction ys generalizing s with
  | nil =>
      cases h
      simp [scan]
  | cons y ys ih =>
      rw [List.foldlM_cons] at h
      obtain ⟨u, hu, h⟩ := bind_eq_ok.mp h
      rw [ih h, pixel_places hu]
      simp [scan]

theorem columns_places {func : FunctionEntry} {s t : Globals × List Pixel} {xs ys : List Nat}
    (h : xs.foldlM (fun s x => ys.foldlM (fun s y => pixel exec func capac s x y) s) s = .ok t) :
    places t.2 = places s.2 ++ scan xs ys := by
  induction xs generalizing s with
  | nil =>
      cases h
      simp [scan]
  | cons x xs ih =>
      rw [List.foldlM_cons] at h
      obtain ⟨u, hu, h⟩ := bind_eq_ok.mp h
      rw [ih h, column_places hu]
      simp [scan]

/-- The first pixel executes the body of the fragment function. -/
theorem render_ran {func : FunctionEntry} {w k : Nat} {out : List Pixel} (hw : 0 < w) (hk : 0 < k)
    (h : render (execExpr n) func w k g = .ok out) : ∀ b ∈ func.body, Ran g n b := by
  obtain ⟨w, rfl⟩ := Nat.exists_eq_succ_of_ne_zero hw.ne'
  obtain ⟨k, rfl⟩ := Nat.exists_eq_succ_of_ne_zero hk.ne'
  have hset {g : Globals} {scope : Enviroment} {name : List UInt8} {v : Word}
      (h : setParam g.scope name v = .ok scope) : Extends g { g with scope } :=
    (extends_create g name (.int 0)).trans (extends_set h)
  obtain ⟨s, h, -⟩ := bind_eq_ok.mp h
  simp only [List.range_succ_eq_map, List.foldlM_cons] at h
  obtain ⟨t, h, -⟩ := bind_eq_ok.mp h
  obtain ⟨u, h, -⟩ := bind_eq_ok.mp h
  obtain ⟨p, -, h⟩ := bind_eq_ok.mp h
  obtain ⟨scope, hp, h⟩ := bind_eq_ok.mp h
  obtain ⟨q, -, h⟩ := bind_eq_ok.mp h
  obtain ⟨scope', hq, h⟩ := bind_eq_ok.mp h
  obtain ⟨g', hbody, -⟩ := bind_eq_ok.mp h
  have hq' : Extends { g with scope } { g with scope := scope' } := hset hq
  intro b hb
  obtain ⟨g₁, v, g₂, hext, hexec⟩ := execAll_mem (changes_all n) (runBody_execAll hbody) hb
  exact ⟨g₁, v, g₂, ((hset hp).trans hq').trans hext, hexec⟩

/-- No call of the function comes to a recursive one. -/
def Acyclic (L : Leads) (fn : FunctionEntry) : Prop :=
  ∀ fn', ReflTransGen (CallsFn L) fn fn' → ¬ Recursive L fn'

theorem acyclic_of_ran (h : ∀ b ∈ fn.body, Ran g n b) : Acyclic (Found g) fn := by
  intro fn' hcs hr
  rcases reflTransGen_iff_eq_or_transGen.mp hcs with rfl | hcs
  · exact not_ran_recursive hr n h
  · obtain ⟨m, -, hm⟩ := ran_callsFn h hcs
    exact not_ran_recursive hr m hm

/-- The names that are called anywhere inside. -/
def Expr.called (e : Expr) : List (List UInt8) :=
  e.parts.filterMap fun p => match p with
    | .list (.symbol name :: _) => if formOf name = .call then some name else none
    | _ => none

/-- No function calls one that stands in its place, or behind it. -/
def Ordered : List FunctionEntry → Prop
  | [] => True
  | fn :: fns => (∀ b ∈ fn.body, ∀ fn' ∈ fn :: fns, fn'.fnName ∉ b.called) ∧ Ordered fns

instance decidableOrdered : (fns : List FunctionEntry) → Decidable (Ordered fns)
  | [] => isTrue trivial
  | _ :: fns =>
      have := decidableOrdered fns
      inferInstanceAs (Decidable (_ ∧ _))

theorem parts_of_part (h : ReflTransGen (Part L) e p) : p ∈ e.parts := by
  induction h with
  | refl => exact self_mem_parts e
  | @tail b c _ hp ih =>
      cases b with
      | list items => exact parts_trans ih (parts_item (part_mem hp) (self_mem_parts c))
      | _ => cases hp

theorem Calls.called (h : Calls (Named D) e fn) : fn.fnName ∈ e.called := by
  obtain ⟨name, items, hparts, hcall, -, rfl⟩ := h
  exact List.mem_filterMap.mpr ⟨_, parts_of_part hparts, if_pos hcall⟩

/-- A function that is called stands before the one that calls it. -/
theorem Ordered.lt {fn' : FunctionEntry} {i j : Nat} (h : Ordered D)
    (hc : CallsFn (Named D) fn fn') (hi : D[i]? = some fn) (hj : D[j]? = some fn') : j < i := by
  obtain ⟨b, hb, hc⟩ := hc
  have hname := hc.called
  clear hc
  induction D generalizing i j with
  | nil => cases hi
  | cons fn₀ fns ih =>
      cases i with
      | zero =>
          cases hi
          exact absurd hname (h.1 b hb fn' (List.mem_of_getElem? hj))
      | succ i =>
          cases j with
          | zero => exact Nat.succ_pos i
          | succ j => exact Nat.succ_lt_succ (ih h.2 hi hj)

/-- **Where every function is defined before it is called, none is recursive.** -/
theorem Ordered.not_recursive (h : Ordered D) : ¬ Recursive (Named D) fn := by
  have hlt {fn₁ fn₂ : FunctionEntry} (hc : TransGen (CallsFn (Named D)) fn₁ fn₂) :
      fn₂ ∈ D ∧ ∀ i j : Nat, D[i]? = some fn₁ → D[j]? = some fn₂ → j < i := by
    induction hc with
    | single hc => exact ⟨hc.elim fun _ hb => hb.2.mem, fun i j => h.lt hc⟩
    | tail _ hc ih =>
        obtain ⟨hmem, hlt⟩ := ih
        obtain ⟨k, hk⟩ := List.mem_iff_getElem?.mp hmem
        refine ⟨hc.elim fun _ hb => hb.2.mem, fun i j hi hj => ?_⟩
        exact (h.lt hc hk hj).trans (hlt i k hi hk)
  intro hr
  obtain ⟨hmem, hself⟩ := hlt hr
  obtain ⟨i, hi⟩ := List.mem_iff_getElem?.mp hmem
  exact Nat.lt_irrefl i (hself i i hi hi)

/-- `(defun f (x y) (ret (+ x y)))` and `(defun g () (f 1 2))`, with no blank that is not needed. -/
def someFunctions : CStr :=
  .lit ['(', 'd', 'e', 'f', 'u', 'n', ' ', 'f', '(', 'x', ' ', 'y', ')', '(', 'r', 'e', 't', '(',
    '+', ' ', 'x', ' ', 'y', ')', ')', ')', '(', 'd', 'e', 'f', 'u', 'n', ' ', 'g', '(', ')', '(',
    'f', ' ', '1', ' ', '2', ')', ')']

end Lisp
end RivOS
