import RivOS.Lisp.Variables

/-!
# Lisp — Rendering

What `lispRun` makes of a program that is one `fragment` function returning an arithmetic
expression.  The two parameters are global variables, created at the first pixel and set again at
every other (`Params`); nothing else that a pixel leaves behind is read at the next one.

* `lispRun_fragment`: every pixel of the screen is drawn once, in the colour the expression has
  there.
-/

namespace RivOS

namespace Lisp

def fragmentName : List UInt8 := ascii ['f', 'r', 'a', 'g', 'm', 'e', 'n', 't']

/-- `(ret e)`. -/
def retExpr (e : Arith) : Expr := .list [.symbol (ascii ['r', 'e', 't']), e.toExpr]

/-- `(defun fragment (p q) (ret e))`. -/
def fragmentExpr (p q : List UInt8) (e : Arith) : Expr :=
  .list [.symbol (ascii ['d', 'e', 'f', 'u', 'n']), .symbol fragmentName,
    .list [.symbol p, .symbol q], retExpr e]

/-- The literals that can be written in a program. -/
def Arith.Printable : Arith → Prop
  | .lit v => v.toNat < 2 ^ 31
  | .var _ => True
  | .op _ a b => a.Printable ∧ b.Printable

/-- The variables at a pixel. -/
def pixelVars (p : List UInt8) (x y : Nat) (s : List UInt8) : Word :=
  if s = p then BitVec.ofNat 32 x else BitVec.ofNat 32 y

/-- The call of `putPixel` for one pixel. -/
def pixelOf (p : List UInt8) (e : Arith) (x y : Nat) : Pixel :=
  ⟨e.value (pixelVars p x y), BitVec.ofNat 32 x, BitVec.ofNat 32 y⟩

/-- The function that the `defun` registers. -/
def fragmentEntry (p q : List UInt8) (e : Arith) : FunctionEntry :=
  ⟨fragmentName, [retExpr e], [p, q]⟩

variable {p q : List UInt8} {e : Arith} {g : Globals} {scope : Enviroment} {n x y capac : Nat}
  {out : List Pixel}

/-! ### The program -/

theorem symbol_name (o : Op) : Symbol o.name := by
  cases o <;> exact symbol_of_all rfl rfl

theorem toExpr_valid (hp : e.Printable) (hv : ∀ s ∈ e.vars, Symbol s) : e.toExpr.Valid := by
  induction e with
  | lit v => exact hp
  | var s => exact hv s (List.mem_singleton.mpr rfl)
  | op o a b iha ihb =>
      have ha := iha hp.1 fun s hs => hv s (List.mem_append_left _ hs)
      have hb := ihb hp.2 fun s hs => hv s (List.mem_append_right _ hs)
      exact ⟨symbol_name o, ha, hb, trivial⟩

theorem fragmentExpr_valid (hp : Symbol p) (hq : Symbol q) (he : e.toExpr.Valid) :
    ValidAll [fragmentExpr p q e] := by
  have hdefun : Symbol (ascii ['d', 'e', 'f', 'u', 'n']) := symbol_of_all rfl rfl
  have hname : Symbol fragmentName := symbol_of_all rfl rfl
  have hret : Symbol (ascii ['r', 'e', 't']) := symbol_of_all rfl rfl
  exact ⟨⟨hdefun, hname, ⟨hp, hq, trivial⟩, ⟨hret, he, trivial⟩, trivial⟩, trivial⟩

theorem execExpr_defun (n : Nat) (p q : List UInt8) (e : Arith) (g : Globals) :
    execExpr (n + 1) (fragmentExpr p q e) g
      = .ok (.none, { g with scope := addFunction g.scope fragmentName [p, q] [retExpr e] }) := rfl

theorem execExpr_ret (n : Nat) (e : Arith) (g : Globals) :
    execExpr (n + 1) (retExpr e) g
      = (execExpr n e.toExpr g).map fun r => (.none, { r.2 with lastReturnvalue := r.1 }) := by
  have h : execExpr (n + 1) (retExpr e) g
      = execRet (execExpr n) [.symbol (ascii ['r', 'e', 't']), e.toExpr] g := rfl
  rw [h, execRet]
  simp only [itemAt, List.getElem?_cons_succ, List.getElem?_cons_zero, ok_bind]
  cases execExpr n e.toExpr g <;> rfl

/-! ### The parameters -/

/-- **The parameters of a pixel**, whatever the pixels before have left. -/
theorem setParams (scope : Enviroment) (hpq : p ≠ q) (x y : Nat) :
    ∃ s t, setParam scope p (BitVec.ofNat 32 x) = .ok s ∧ setParam s q (BitVec.ofNat 32 y) = .ok t ∧
      t.functions = scope.functions ∧
      ∀ g : Globals, g.scope = t → Defined (pixelVars p x y) g [p, q] := by
  obtain ⟨s, hs, hsf, hse⟩ := createVariable_set scope p (.int (BitVec.ofNat 32 x))
  obtain ⟨t, ht, htf, hte⟩ := createVariable_set s q (.int (BitVec.ofNat 32 y))
  refine ⟨s, t, hs, ht, htf.trans hsf, ?_⟩
  rintro g rfl name hname
  rw [getVariable_upsert hte, getVariable_upsert hse]
  rcases List.mem_cons.mp hname with rfl | hname
  · simp [hpq, pixelVars]
  · obtain rfl := List.mem_singleton.mp hname
    simp [pixelVars, hpq.symm]

/-! ### The screen -/

/-- The body of the fragment function, where the parameters are set. -/
theorem runBody_fragment {ρ : List UInt8 → Word} (hdef : Defined ρ g e.vars)
    (hov : ¬ e.Overflows ρ) (hn : e.depth ≤ n) :
    runBody (execExpr (n + 1)) g.scope.functions.capac [retExpr e] g
      = .ok { g with lastReturnvalue := .int (e.value ρ) } := by
  rw [runBody, execExpr_ret, execExpr_value hdef hov hn]
  simp [Except.map, ok_bind, alive, runBody]

theorem pixel_fragment (hpq : p ≠ q) (hv : ∀ s ∈ e.vars, s ∈ [p, q])
    (hov : ¬ e.Overflows (pixelVars p x y)) (hn : e.depth ≤ n)
    (hcap : g.scope.functions.capac = capac) :
    ∃ g', pixel (execExpr (n + 1)) (fragmentEntry p q e) capac (g, out) x y
        = .ok (g', out ++ [pixelOf p e x y]) ∧ g'.scope.functions.capac = capac := by
  obtain ⟨s, t, hs, ht, hf, hdef⟩ := setParams g.scope hpq x y
  have hcap' : t.functions.capac = capac := by rw [hf, hcap]
  have hdef' : Defined (pixelVars p x y) { g with scope := t } e.vars := fun name hname =>
    hdef _ rfl name (hv name hname)
  have hbody := runBody_fragment hdef' hov hn
  rw [hcap'] at hbody
  refine ⟨{ scope := t, lastReturnvalue := .int (e.value (pixelVars p x y)) }, ?_, hcap'⟩
  simp only [pixel, fragmentEntry, itemAt, List.getElem?_cons_zero, List.getElem?_cons_succ,
    ok_bind, hs, ht, hbody]
  rfl

/-- One column of the screen. -/
theorem column_fragment (hpq : p ≠ q) (hv : ∀ s ∈ e.vars, s ∈ [p, q]) (hn : e.depth ≤ n)
    {ys : List Nat} (hov : ∀ y ∈ ys, ¬ e.Overflows (pixelVars p x y))
    (hcap : g.scope.functions.capac = capac) :
    ∃ g', ys.foldlM (fun s y => pixel (execExpr (n + 1)) (fragmentEntry p q e) capac s x y) (g, out)
        = .ok (g', out ++ ys.map (pixelOf p e x)) ∧ g'.scope.functions.capac = capac := by
  induction ys generalizing g out with
  | nil => exact ⟨g, by simp [pure, Except.pure], hcap⟩
  | cons y ys ih =>
      obtain ⟨g', hpixel, hcap'⟩ := pixel_fragment hpq hv (hov y (by simp)) hn hcap
      obtain ⟨g'', hrest, hcap''⟩ := ih (fun z hz => hov z (by simp [hz])) hcap'
      refine ⟨g'', ?_, hcap''⟩
      rw [List.foldlM_cons, hpixel, ok_bind, hrest]
      simp

/-- The pixels of some columns. -/
def pixels (p : List UInt8) (e : Arith) (xs ys : List Nat) : List Pixel :=
  xs.flatMap fun x => ys.map (pixelOf p e x)

theorem columns_fragment (hpq : p ≠ q) (hv : ∀ s ∈ e.vars, s ∈ [p, q]) (hn : e.depth ≤ n)
    {xs ys : List Nat} (hov : ∀ x ∈ xs, ∀ y ∈ ys, ¬ e.Overflows (pixelVars p x y))
    (hcap : g.scope.functions.capac = capac) :
    ∃ g', xs.foldlM (fun s x => ys.foldlM (fun s y =>
          pixel (execExpr (n + 1)) (fragmentEntry p q e) capac s x y) s) (g, out)
        = .ok (g', out ++ pixels p e xs ys) := by
  induction xs generalizing g out with
  | nil => exact ⟨g, by simp [pixels, pure, Except.pure]⟩
  | cons x xs ih =>
      obtain ⟨g', hcol, hcap'⟩ :=
        @column_fragment p q e g n x capac out hpq hv hn ys (hov x (by simp)) hcap
      obtain ⟨g'', hrest⟩ := @ih g' (out ++ ys.map (pixelOf p e x))
        (fun z hz => hov z (by simp [hz])) hcap'
      refine ⟨g'', ?_⟩
      rw [List.foldlM_cons, hcol, ok_bind, hrest]
      simp [pixels]

theorem render_fragment (hpq : p ≠ q) (hv : ∀ s ∈ e.vars, s ∈ [p, q]) (hn : e.depth ≤ n)
    {w h : Nat} (hov : ∀ x < w, ∀ y < h, ¬ e.Overflows (pixelVars p x y)) (g : Globals) :
    render (execExpr (n + 1)) (fragmentEntry p q e) w h g
      = .ok (pixels p e (List.range w) (List.range h)) := by
  have hov' : ∀ x ∈ List.range w, ∀ y ∈ List.range h, ¬ e.Overflows (pixelVars p x y) :=
    fun x hx y hy => hov x (List.mem_range.mp hx) y (List.mem_range.mp hy)
  obtain ⟨g', hrun⟩ := @columns_fragment p q e g n _ [] hpq hv hn _ _ hov' rfl
  rw [render, hrun]
  rfl

/-! ### The whole run -/

theorem shrinks_programTurn (exec : Eval) (tokens : Vector Token) :
    Shrinks (programTurn exec tokens) fun s => tokens.size - s.2 := by
  intro s t h
  rw [programTurn] at h
  split at h
  · obtain ⟨⟨expr, pos⟩, hexpr, h⟩ := bind_eq_ok.mp h
    obtain ⟨⟨v, g⟩, -, h⟩ := bind_eq_ok.mp h
    cases h
    have := exprN_pos hexpr
    simp only
    omega
  · cases h

/-- The program is its one expression, which registers the function. -/
theorem runProgram_fragment {tokens : Vector Token} (hv : (fragmentExpr p q e).Valid)
    (h : tokens.elems = tokensAll [fragmentExpr p q e]) (n : Nat) (g : Globals) :
    runProgram (execExpr (n + 1)) tokens g
      = .ok { g with scope := addFunction g.scope fragmentName [p, q] [retExpr e] } := by
  have helems : tokens.elems = (fragmentExpr p q e).tokens := by
    rw [h, tokensAll, tokensAll, List.append_nil]
  have hsize : tokens.size = (fragmentExpr p q e).tokens.length := by
    rw [Vector.size, helems]
  have hparse : parseExpr tokens 0 = .ok (fragmentExpr p q e, tokens.size) := by
    have := @parseExpr_tokens tokens (fragmentExpr p q e) [] [] hv (by simp [helems])
    simpa [hsize] using this
  have hpos : 0 < tokens.size := by
    rw [hsize]
    exact tokens_pos _
  let g' : Globals := { g with scope := addFunction g.scope fragmentName [p, q] [retExpr e] }
  have hturn : programTurn (execExpr (n + 1)) tokens (g, 0) = .ok (.inl (g', tokens.size)) := by
    rw [programTurn, if_pos hpos, hparse, ok_bind]
    simp only [execExpr_defun, ok_bind, g']
  have hend : programTurn (execExpr (n + 1)) tokens (g', tokens.size) = .ok (.inr g') := by
    rw [programTurn, if_neg (Nat.lt_irrefl _)]
  rw [runProgram, loop_turn (shrinks_programTurn _ _) hturn]
  exact loop_leave hend

theorem nodup_pixels {w h : Nat} (hw : w < 2 ^ 31) (hh : h < 2 ^ 31) :
    ((pixels p e (List.range w) (List.range h)).map fun px => (px.x, px.y)).Nodup := by
  have hmap : (pixels p e (List.range w) (List.range h)).map (fun px => (px.x, px.y))
      = (List.product (List.range w) (List.range h)).map
          fun z => (BitVec.ofNat 32 z.1, BitVec.ofNat 32 z.2) := by
    simp [pixels, List.product, List.map_flatMap, pixelOf, Function.comp_def]
  -- below 2^31 a coordinate is read back from its 32 bits
  have hinj {a b k : Nat} (hk : k < 2 ^ 31) (ha : a < k) (hb : b < k)
      (h : BitVec.ofNat 32 a = BitVec.ofNat 32 b) : a = b := by
    have := congrArg BitVec.toNat h
    simp only [BitVec.toNat_ofNat] at this
    omega
  rw [hmap]
  refine List.Nodup.map_on ?_ (List.nodup_range.product List.nodup_range)
  rintro ⟨x, y⟩ hxy ⟨x', y'⟩ hxy' heq
  obtain ⟨hx, hy⟩ := List.mem_product.mp hxy
  obtain ⟨hx', hy'⟩ := List.mem_product.mp hxy'
  obtain ⟨e₁, e₂⟩ := Prod.mk.inj heq
  rw [List.mem_range] at hx hy hx' hy'
  exact Prod.ext (hinj hw hx hx' e₁) (hinj hh hy hy' e₂)

theorem findFunction_fragment (p q : List UInt8) (e : Arith) :
    findFunction (addFunction enviromentInit fragmentName [p, q] [retExpr e]) fragmentName
      = some (fragmentEntry p q e) := by
  simp [findFunction, addFunction, enviromentInit, svEq, fragmentEntry]

/-- **Rendering**: every pixel of the screen is drawn once, in its colour, and no other. -/
theorem lispRun_fragment {code : CStr} {w h : Nat} (last : Value) (hpq : p ≠ q) (hp : Symbol p)
    (hq : Symbol q) (he : e.Printable) (hv : ∀ s ∈ e.vars, s ∈ [p, q])
    (hcode : Renders (tokensAll [fragmentExpr p q e]) code.chars) (hw : w < 2 ^ 31)
    (hh : h < 2 ^ 31) (hov : ∀ x < w, ∀ y < h, ¬ e.Overflows (pixelVars p x y)) :
    ∃ out, (∃ k, ∀ n, k ≤ n → lispRun n code w h last = .ok out) ∧
      (out.map fun px => (px.x, px.y)).Nodup ∧
      ∀ px, px ∈ out ↔ ∃ x < w, ∃ y < h, px = pixelOf p e x y := by
  have hvalid : ValidAll [fragmentExpr p q e] := by
    refine fragmentExpr_valid hp hq (toExpr_valid he fun s hs => ?_)
    rcases List.mem_cons.mp (hv s hs) with rfl | hs
    · exact hp
    · exact List.mem_singleton.mp hs ▸ hq
  obtain ⟨tokens, htok, helems⟩ := tokenize_renders hcode
  refine ⟨pixels p e (List.range w) (List.range h), ⟨e.depth + 1, fun n hn => ?_⟩,
    nodup_pixels hw hh, fun px => ?_⟩
  · obtain ⟨k, rfl⟩ : ∃ k, n = k + 1 := ⟨n - 1, by omega⟩
    rw [lispRun, htok]
    simp only [Except.mapError, ok_bind, runProgram_fragment hvalid.1 helems]
    have hfind := findFunction_fragment p q e
    rw [fragmentName] at hfind
    simp only [fragmentName, hfind]
    exact render_fragment hpq hv (by omega) hov _
  · simp only [pixels, List.mem_flatMap, List.mem_map, List.mem_range]
    constructor
    · rintro ⟨x, hx, y, hy, rfl⟩
      exact ⟨x, hx, y, hy, rfl⟩
    · rintro ⟨x, hx, y, hy, rfl⟩
      exact ⟨x, hx, y, hy, rfl⟩

/-- `(defun fragment (x y) (ret x))`. -/
def someFragment : Expr := fragmentExpr [120] [121] (.var [120])

theorem lispRun_someFragment :
    ∃ out, (∃ k, ∀ n, k ≤ n → lispRun n ⟨spaced (tokensAll [someFragment]), by decide⟩ 2 1 .none
        = .ok out) ∧
      (out.map fun px => (px.x, px.y)).Nodup ∧
      ∀ px, px ∈ out ↔ ∃ x < 2, ∃ y < 1, px = pixelOf [120] (.var [120]) x y := by
  have hx : Symbol [120] := symbol_of_all rfl rfl
  have hy : Symbol [121] := symbol_of_all rfl rfl
  have hvalid : ValidAll [someFragment] := fragmentExpr_valid hx hy hx
  have hcode : Renders (tokensAll [someFragment]) (spaced (tokensAll [someFragment])) :=
    renders_spaced (tokens_valid _ hvalid)
  exact lispRun_fragment .none (by decide) hx hy trivial (by simp [Arith.vars]) hcode (by decide)
    (by decide) fun _ _ _ _ h => h

end Lisp
end RivOS
