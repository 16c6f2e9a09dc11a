import RivOS.Lisp.Sine
import RivOS.Support.Bounded

/-!
# Lisp — How deep an execution nests

`execExpr` (`sbinSrc/de/lisp/lisp.c`) calls itself for the parts of a list and for the bodies of
functions.  The source has no bound on that; the bound of `execExpr` is the model's own, and the
only thing that can run out of it is the nesting.

* `lispRun_stable`: a run that does not come to the bound is the same with every larger one.
* `parseExpr_ne_fuel`, `sinInt_ne_fuel`: neither the reader nor a built-in form comes to a bound.
-/

namespace RivOS

namespace Lisp

/-- `exec'` gives what `exec` gives, wherever that does not come to the bound. -/
def Refines (exec exec' : Eval) : Prop := ∀ e g, Below .fuel (exec e g) (exec' e g)

variable {exec exec' : Eval} {items es : List Expr} {g : Globals} {name : List UInt8}
  {capac m n i : Nat} {ps : List (List UInt8)} {tokens : Vector Token} {func : FunctionEntry}

/-! ### Forms -/

theorem below_item {α β : Type} {elems : List α} {i : Nat} {f f' : α → Except Stop β}
    (h : ∀ a, Below .fuel (f a) (f' a)) :
    Below .fuel (itemAt elems i >>= f) (itemAt elems i >>= f') :=
  (Below.refl _ _).bind h

theorem execMath_below (h : Refines exec exec') :
    Below .fuel (execMath exec items g name) (execMath exec' items g name) :=
  below_item fun a => below_item fun b => (h a g).bind fun ⟨_, ga⟩ => (h b ga).bind fun _ =>
    .refl _ _

theorem symbolInit_below (h : Refines exec exec') (msg : String) :
    Below .fuel (symbolInit exec items g msg) (symbolInit exec' items g msg) := by
  refine below_item fun symb => below_item fun e => ?_
  cases symb with
  | symbol s => exact (h e g).map _
  | _ => exact .refl _ _

theorem execRgb_below (h : Refines exec exec') :
    Below .fuel (execRgb exec items g) (execRgb exec' items g) :=
  below_item fun a => below_item fun b => below_item fun c => (h a g).bind fun ⟨_, ga⟩ =>
    (h b ga).bind fun ⟨_, gb⟩ => (h c gb).bind fun _ => .refl _ _

theorem execPrint_below (h : Refines exec exec') :
    Below .fuel (execPrint exec items g) (execPrint exec' items g) :=
  below_item fun e => (h e g).bind fun _ => .refl _ _

theorem execSin_below (h : Refines exec exec') :
    Below .fuel (execSin exec items g) (execSin exec' items g) :=
  below_item fun e => (h e g).bind fun _ => .refl _ _

theorem execRet_below (h : Refines exec exec') :
    Below .fuel (execRet exec items g) (execRet exec' items g) :=
  below_item fun e => (h e g).bind fun _ => .refl _ _

theorem bindParams_below (h : Refines exec exec') (capac i : Nat) (ps : List (List UInt8))
    (g : Globals) :
    Below .fuel (bindParams exec items capac i ps g) (bindParams exec' items capac i ps g) := by
  induction ps generalizing i g with
  | nil => exact .refl _ _
  | cons p ps ih =>
      exact below_item fun e => (h e _).bind fun ⟨_, g₁⟩ => (Below.refl _ _).bind fun _ =>
        (Below.refl _ _).bind fun _ => ih _ _

theorem runBody_below (h : Refines exec exec') (capac : Nat) (es : List Expr) (g : Globals) :
    Below .fuel (runBody exec capac es g) (runBody exec' capac es g) := by
  induction es generalizing g with
  | nil => exact .refl _ _
  | cons e es ih => exact (h e g).bind fun ⟨_, g₁⟩ => (Below.refl _ _).bind fun _ => ih g₁

theorem execCall_below (h : Refines exec exec') :
    Below .fuel (execCall exec items g name) (execCall exec' items g name) := by
  rw [execCall, execCall]
  split
  · exact .refl _ _
  · exact (bindParams_below h _ _ _ _).bind fun g₁ => (runBody_below h _ _ _).bind fun _ =>
      .refl _ _

theorem execForm_below (h : Refines exec exec') :
    Below .fuel (execForm exec items g name) (execForm exec' items g name) := by
  rw [execForm, execForm]
  split; · exact execMath_below h
  split; · exact (symbolInit_below h _).bind fun _ => .refl _ _
  split; · exact (symbolInit_below h _).bind fun _ => .refl _ _
  split; · exact execRgb_below h
  split; · exact execPrint_below h
  split; · exact .refl _ _
  split; · exact execPrint_below h
  split; · exact .refl _ _
  split; · exact execSin_below h
  split; · exact execRet_below h
  · exact execCall_below h

theorem execList_below (h : Refines exec exec') :
    Below .fuel (execList exec items g) (execList exec' items g) := by
  refine below_item fun first => ?_
  cases first with
  | symbol name => exact execForm_below h
  | _ => exact .refl _ _

/-- One call more. -/
theorem execExpr_below (n : Nat) : Refines (execExpr n) (execExpr (n + 1)) := by
  induction n with
  | zero =>
      intro e g
      cases e with
      | list items => exact .inl rfl
      | _ => exact .refl _ _
  | succ n ih =>
      intro e g
      cases e with
      | list items => exact execList_below ih
      | _ => exact .refl _ _

/-! ### A whole run -/

theorem pixel_below (h : Refines exec exec') (capac : Nat) (s : Globals × List Pixel) (x y : Nat) :
    Below .fuel (pixel exec func capac s x y) (pixel exec' func capac s x y) :=
  below_item fun _ => (Below.refl _ _).bind fun _ => below_item fun _ =>
    (Below.refl _ _).bind fun _ => (runBody_below h _ _ _).bind fun _ => .refl _ _

theorem render_below (h : Refines exec exec') (w k : Nat) (g : Globals) :
    Below .fuel (render exec func w k g) (render exec' func w k g) :=
  Below.bind (.foldlM (fun s x => .foldlM (fun s y => pixel_below h _ s x y) _ s) _ _)
    fun _ => .refl _ _

theorem runProgram_below (h : Refines exec exec') (tokens : Vector Token) (g : Globals) :
    Below .fuel (runProgram exec tokens g) (runProgram exec' tokens g) := by
  refine .loop (fun s => ?_) _
  rw [programTurn, programTurn]
  split
  · exact (Below.refl _ _).bind fun ⟨e, _⟩ => (h e s.1).bind fun _ => .refl _ _
  · exact .refl _ _

theorem lispRun_below (n : Nat) (code : CStr) (w h : Nat) (last : Value) :
    Below .fuel (lispRun n code w h last) (lispRun (n + 1) code w h last) := by
  refine (Below.refl _ _).bind fun tokens => (runProgram_below (execExpr_below n) _ _).bind
    fun g => ?_
  split
  · exact .refl _ _
  · split
    · exact render_below (execExpr_below n) _ _ _
    · exact .refl _ _

/-- **The bound does not matter where it is enough.** -/
theorem lispRun_stable {code : CStr} {w h : Nat} {last : Value}
    (hm : lispRun m code w h last ≠ .error .fuel) (hmn : m ≤ n) :
    lispRun n code w h last = lispRun m code w h last := by
  have hbelow := below_of_le (fun k => lispRun_below k code w h last) hmn
  exact (hbelow.eq hm).symm

/-! ### What does not come to the bound -/

theorem itemAt_ne_fuel {α : Type} {elems : List α} {i : Nat} : itemAt elems i ≠ .error .fuel := by
  rw [itemAt]
  split <;> simp

theorem getVariable_ne_fuel {env : Enviroment} : getVariable env name ≠ .error .fuel := by
  rw [getVariable]
  split <;> nofun

theorem setVariable_ne_fuel {env : Enviroment} {v : Value} :
    setVariable env name v ≠ .error .fuel := by
  rw [setVariable]
  split
  · nofun
  · split <;> nofun

theorem alive_ne_fuel : alive capac g ≠ .error .fuel := by
  rw [alive]
  split <;> nofun

theorem map_ne_error {α β : Type} {x : Except Stop α} {f : α → β} (h : x ≠ .error .fuel) :
    x.map f ≠ .error .fuel := by
  rcases x with e | a
  · intro he
    cases he
    exact h rfl
  · nofun

theorem paramNames_ne_fuel (args : List Expr) : paramNames args ≠ .error .fuel := by
  induction args with
  | nil => nofun
  | cons a args ih =>
      cases a with
      | symbol s => exact map_ne_error ih
      | _ => nofun

theorem divide_ne_fuel {q : Word → Word → Word} {a b : Word} : divide q a b ≠ .error .fuel := by
  rw [divide]
  split
  · nofun
  · split <;> nofun

theorem mathOp_ne_fuel {a b : Word} : mathOp name a b ≠ .error .fuel := by
  rw [mathOp]
  split; · nofun
  split; · nofun
  split; · nofun
  split; · exact divide_ne_fuel
  split; · exact divide_ne_fuel
  split; · nofun
  split; · nofun
  split; · nofun
  split <;> nofun

theorem sinInt_ne_fuel (x : Word) : sinInt x ≠ .error .fuel := by
  intro h
  have hsin := sinInt_toInt x
  rw [h] at hsin
  cases hsin

mutual

/-- Twice the number of tokens left is enough for the reader. -/
theorem exprN_ne_fuel : ∀ {n pos : Nat}, 2 * (tokens.size - pos) ≤ n → 0 < n →
    exprN n tokens pos ≠ .error .fuel
  | 0, _, _, h => by omega
  | n + 1, pos, hn, _ => by
      refine bind_ne_error itemAt_ne_fuel fun tok htok => ?_
      have := lt_size htok
      split
      · nofun
      · nofun
      · nofun
      · exact listN_ne_fuel (by omega)
      · nofun

theorem listN_ne_fuel : ∀ {n pos : Nat} {items : Vector Expr}, 2 * (tokens.size - pos) < n →
    listN n tokens pos items ≠ .error .fuel
  | 0, _, _, h => by omega
  | n + 1, pos, items, hn => by
      refine bind_ne_error itemAt_ne_fuel fun tok htok => ?_
      have := lt_size htok
      split
      · nofun
      · refine bind_ne_error (exprN_ne_fuel (by omega) (by omega)) fun ⟨child, pos'⟩ hchild => ?_
        have := exprN_pos hchild
        exact listN_ne_fuel (by omega)

end

theorem parseExpr_ne_fuel {pos : Nat} : parseExpr tokens pos ≠ .error .fuel :=
  exprN_ne_fuel (by omega) (by omega)

end Lisp
end RivOS
