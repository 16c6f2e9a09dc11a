import RivOS.Lisp.Typing

/-!
# Lisp — Texts that are checked

`checkText` is the check of a whole shader text, before `lispRun` (`sbinSrc/de/lisp/lisp.c`) runs
it.  A function is checked where it is defined, against the variables and the functions that are
there by then; no two have one name, and none is registered inside another expression.

* `programLoop_eq`: the expressions are executed one after the other.
* `checked_draws`: a text that is checked draws the whole screen, whatever its size, or stops at a
  division whose quotient is no 32-bit number.
-/

namespace RivOS

namespace Lisp

open Filter

/-- A function of the text: its parameters are integers, and no function of its name is there. -/
def checkDefun (Γ : Typing) (Δ : List Signature) (fn : FunctionEntry) (k : Known) :
    Option Signature :=
  if (∀ p ∈ fn.params, Γ p = .int) ∧ ∀ sig ∈ Δ, sig.fn.fnName ≠ fn.fnName then
    (checkArgs Γ Δ fn.body ⟨fn.params ++ k.vars, none⟩).map fun r => ⟨fn, k.vars, r.2⟩
  else none

/-- An expression of the text: a function, or something that is executed. -/
def checkTop (Γ : Typing) (s : List Signature × Known) (e : Expr) :
    Option (List Signature × Known) :=
  match e.entry with
  | some fn => (checkDefun Γ s.1 fn s.2).map fun sig => (sig :: s.1, s.2)
  | none => (checkExpr Γ s.1 e s.2).map fun r => (s.1, r.2)

/-- The functions of a text, and what is known behind it. -/
def checkAll (Γ : Typing) (code : CStr) : Option (List Signature × Known) := do
  let tokens ← (tokenize code .init).toOption
  let parsed ← (parseAll tokens).toOption
  parsed.1.foldlM (checkTop Γ) ([], ⟨[], none⟩)

/-- A text with a fragment function. -/
def checkText (Γ : Typing) (code : CStr) : Bool :=
  (checkAll Γ code).any fun s => s.1.any fun sig =>
    sig.fn.fnName = fragmentName ∧ sig.fn.params.length = 2 ∧ sig.Met s.2

variable {Γ : Typing} {Δ Δ' : List Signature} {k : Known} {e : Expr} {es : List Expr} {g : Globals}
  {x : List UInt8} {sig : Signature} {tokens : Vector Token}

/-! ### The text -/

theorem Signature.Sound.mono (h : sig.Sound Γ Δ') (hΔ : Δ' ⊆ Δ) : sig.Sound Γ Δ := by
  obtain ⟨hparams, τs, hbody⟩ := h
  exact ⟨hparams, τs, hbody.mono hΔ⟩

/-- What the expressions of the text have left: the functions that were checked, and no others. -/
structure Registered (Γ : Typing) (s : List Signature × Known) (g : Globals) : Prop where
  provides : Provides s.1 g
  others : ∀ name, (∀ sig ∈ s.1, sig.fn.fnName ≠ name) → findFunction g.scope name = none
  knows : Knows Γ s.2 g

/-- A definition. -/
theorem execExpr_entry {fn : FunctionEntry} (h : e.entry = some fn) (n : Nat) (g : Globals) :
    execExpr (n + 1) e g =
      .ok (.none, { g with scope := addFunction g.scope fn.fnName fn.params fn.body }) := by
  unfold Expr.entry at h
  split at h
  · next name fnName args b body =>
      split at h
      · next hform =>
          obtain ⟨params, hparams, rfl⟩ := Option.map_eq_some_iff.mp h
          have hparams' : paramNames args = .ok params := toOption_eq_some.mp hparams
          rw [execExpr_symbol, hform, Form.run, execDefun]
          simp only [itemAt, List.getElem?_cons_succ, List.getElem?_cons_zero, ok_bind, hparams']
          rfl
      · cases h
  · cases h

theorem Registered.define {s : List Signature × Known} (h : Registered Γ s g)
    (hnew : ∀ sig' ∈ s.1, sig'.fn.fnName ≠ sig.fn.fnName) :
    Registered Γ (sig :: s.1, s.2)
      { g with scope := addFunction g.scope sig.fn.fnName sig.fn.params sig.fn.body } := by
  refine ⟨List.forall_mem_cons.mpr ⟨?_, fun sig' hsig' => ?_⟩, fun name hname => ?_,
    h.knows.typed, h.knows.vars, h.knows.ret⟩
  · exact findFunction_addFunction sig.fn.params sig.fn.body (h.others _ hnew)
  · exact findFunction_later sig.fn.params sig.fn.body (h.provides sig' hsig')
  · obtain ⟨hne, hname⟩ := List.forall_mem_cons.mp hname
    have hnone := h.others name hname
    rw [findFunction] at hnone
    rw [findFunction, addFunction, Vector.pushBack_elems, List.find?_append, hnone]
    simp [svEq, hne]

/-- One expression of the text. -/
theorem checkTop_sound {s s' : List Signature × Known} (hs : ∀ sig ∈ s.1, sig.Sound Γ s.1)
    (h : checkTop Γ s e = some s') : (∀ sig ∈ s'.1, sig.Sound Γ s'.1) ∧
      ∀ᶠ n in atTop, ∀ g, Registered Γ s g →
        Gives Trapped (fun r => Registered Γ s' r.2) (execExpr n e g) := by
  rw [checkTop] at h
  split at h
  · next fn hfn =>
      obtain ⟨sig, hsig, rfl⟩ := Option.map_eq_some_iff.mp h
      rw [checkDefun] at hsig
      split at hsig
      · next hok =>
          obtain ⟨r, hr, rfl⟩ := Option.map_eq_some_iff.mp hsig
          have hsound : Signature.Sound Γ s.1 ⟨fn, s.2.vars, r.2⟩ :=
            ⟨hok.1, r.1, checkArgs_sound hs fn.body hr⟩
          have hsub := List.subset_cons_self (⟨fn, s.2.vars, r.2⟩ : Signature) s.1
          refine ⟨List.forall_mem_cons.mpr ⟨hsound.mono hsub, fun sig hsig =>
            (hs sig hsig).mono hsub⟩, eventually_atTop.mpr ⟨1, fun n hn g hg => ?_⟩⟩
          obtain ⟨m, rfl⟩ : ∃ m, n = m + 1 := ⟨n - 1, by omega⟩
          rw [execExpr_entry hfn]
          exact hg.define hok.2
      · cases hsig
  · obtain ⟨r, hr, rfl⟩ := Option.map_eq_some_iff.mp h
    refine ⟨hs, ?_⟩
    filter_upwards [checkExpr_sound hs e hr] with n hn g hg
    refine (hn g hg.provides hg.knows).mono fun t ht => ?_
    obtain ⟨-, hk, hstays⟩ := ht
    refine ⟨hg.provides.stays hstays, fun name hname => ?_, hk⟩
    rw [findFunction, hstays.functions]
    exact hg.others name hname

/-- All of them. -/
theorem checkTop_foldlM {s s' : List Signature × Known} (hs : ∀ sig ∈ s.1, sig.Sound Γ s.1)
    (h : es.foldlM (checkTop Γ) s = some s') : (∀ sig ∈ s'.1, sig.Sound Γ s'.1) ∧
      ∀ᶠ n in atTop, ∀ g, Registered Γ s g → Gives Trapped (Registered Γ s')
        (es.foldlM (fun g e => (execExpr n e g).map Prod.snd) g) := by
  induction es generalizing s with
  | nil =>
      cases h
      exact ⟨hs, .of_forall fun n g hg => hg⟩
  | cons e es ih =>
      rw [List.foldlM_cons] at h
      obtain ⟨s₁, h₁, h⟩ := Option.bind_eq_some_iff.mp h
      obtain ⟨hs₁, he⟩ := checkTop_sound hs h₁
      obtain ⟨hs', hes⟩ := ih hs₁ h
      refine ⟨hs', ?_⟩
      filter_upwards [he, hes] with n he hes g hg
      rw [List.foldlM_cons]
      exact ((he g hg).map fun r hr => hr).bind hes

/-- The expressions that are left to be read are the ones that are executed. -/
theorem programLoop_eq (exec : Eval) {pos q : Nat} {done all : List Expr}
    (h : loop (parseTurn tokens) .fuel (fun s => tokens.size - s.2) (done, pos) = .ok (all, q)) :
    ∃ es, all = done ++ es ∧ ∀ g,
      loop (programTurn exec tokens) .fuel (fun s => tokens.size - s.2) (g, pos) =
        es.foldlM (fun g e => (exec e g).map Prod.snd) g := by
  induction hm : tokens.size - pos using Nat.strong_induction_on generalizing pos done with
  | _ m ih =>
      subst hm
      rw [loop_eq shrinks_parseTurn] at h
      obtain ⟨r, hr, h⟩ := bind_eq_ok.mp h
      rw [parseTurn] at hr
      split at hr
      · next hlt =>
          obtain ⟨⟨e, pos'⟩, he, rfl⟩ := map_eq_ok.mp hr
          have hpos := exprN_pos he
          simp only at hlt
          obtain ⟨es, rfl, hes⟩ := ih (tokens.size - pos') (by omega) h rfl
          refine ⟨e :: es, by simp, fun g => ?_⟩
          have hturn : programTurn exec tokens (g, pos) =
              (exec e g).map fun r => .inl (r.2, pos') := by
            rw [programTurn, if_pos hlt, he, ok_bind]
            cases hexec : exec e g <;> simp only [hexec] <;> rfl
          rw [loop_eq (shrinks_programTurn exec tokens), hturn, List.foldlM_cons]
          cases exec e g with
          | error s => rfl
          | ok r => exact hes r.2
      · next hge =>
          cases hr
          cases h
          refine ⟨[], by simp, fun g => loop_leave ?_⟩
          rw [programTurn, if_neg hge]

theorem runProgram_eq (exec : Eval) {q : Nat} (h : parseAll tokens = .ok (es, q)) (g : Globals) :
    runProgram exec tokens g = es.foldlM (fun g e => (exec e g).map Prod.snd) g := by
  obtain ⟨es', hes, hrun⟩ := programLoop_eq exec h
  rw [List.nil_append] at hes
  rw [hes]
  exact hrun g

/-! ### The screen -/

theorem Knows.param (h : Knows Γ k g) (hx : Γ x = .int) (w : Word) :
    ∃ scope, setParam g.scope x w = .ok scope ∧
      Knows Γ { k with vars := x :: k.vars } { g with scope } ∧ Stays g { g with scope } := by
  obtain ⟨hk₁, hs₁⟩ := h.create (x := x) (v := .int 0) hx.symm
  obtain ⟨scope, hset, hk₂, hs₂⟩ := hk₁.set (hk₁.vars x List.mem_cons_self) (v := .int w) hx.symm
  exact ⟨scope, hset, hk₂, hs₁.trans hs₂⟩

/-- One pixel. -/
theorem pixel_gives (hsound : sig.Sound Γ Δ) (hlen : sig.fn.params.length = 2)
    (hneeds : ∀ x ∈ sig.needs, x ∈ k.vars) (hret : k.ret = none) :
    ∀ᶠ n in atTop, ∀ (s : Globals × List Pixel) capac x y, s.1.scope.functions.capac = capac →
      Provides Δ s.1 → Knows Γ k s.1 →
      Gives Trapped (fun t => Behind Γ k s.1 t.1) (pixel (execExpr n) sig.fn capac s x y) := by
  obtain ⟨hparams, τs, hbody⟩ := hsound
  obtain ⟨p, q, hpq⟩ : ∃ p q, sig.fn.params = [p, q] := List.length_eq_two.mp hlen
  rw [hpq] at hparams hbody
  filter_upwards [hbody.runBody] with n hbody s capac x y hcapac hprov hk
  obtain ⟨scope₁, hset₁, hk₁, hs₁⟩ := hk.param (hparams p List.mem_cons_self) (BitVec.ofNat 32 x)
  obtain ⟨scope₂, hset₂, hk₂, hs₂⟩ :=
    hk₁.param (hparams q (.tail _ List.mem_cons_self)) (BitVec.ofNat 32 y)
  have hs := hs₁.trans hs₂
  have hk₂' : Knows Γ ⟨[p, q] ++ sig.needs, none⟩ { s.1 with scope := scope₂ } := by
    refine hk₂.mono ?_ (.inl rfl)
    intro z hz
    simp only [List.cons_append, List.nil_append, List.mem_cons] at hz ⊢
    rcases hz with rfl | rfl | hz
    · exact .inr (.inl rfl)
    · exact .inl rfl
    · exact .inr (.inr (hneeds z hz))
  have hcapac₂ : scope₂.functions.capac = capac := by
    rw [hs.functions]
    exact hcapac
  have hitem (i : Nat) (z : List UInt8) (h : [p, q][i]? = some z) :
      itemAt sig.fn.params i = .ok z := itemAt_eq_ok.mpr (hpq ▸ h)
  rw [pixel]
  refine gives_ok_bind (hitem 0 p rfl) (gives_ok_bind hset₁ (gives_ok_bind (hitem 1 q rfl)
    (gives_ok_bind hset₂ ((hbody _ capac hcapac₂ (hprov.stays hs) hk₂').bind ?_))))
  rintro g' ⟨hk', hs'⟩
  have hall := hs.trans hs'
  exact ⟨⟨hk'.typed, fun z hz => hall.vars (hk.vars z hz), fun τ hτ => by
    rw [hret] at hτ
    cases hτ⟩, hall⟩

/-- The whole screen. -/
theorem render_gives (hsound : sig.Sound Γ Δ) (hlen : sig.fn.params.length = 2)
    (hneeds : ∀ x ∈ sig.needs, x ∈ k.vars) :
    ∀ᶠ n in atTop, ∀ g w h, Provides Δ g → Knows Γ k g →
      Gives Trapped (fun out => places out = scan (List.range w) (List.range h))
        (render (execExpr n) sig.fn w h g) := by
  filter_upwards [pixel_gives (k := ⟨k.vars, none⟩) hsound hlen hneeds rfl] with n hpixel g w h
    hp hk
  let I (s : Globals × List Pixel) : Prop := Behind Γ ⟨k.vars, none⟩ g s.1
  have hstep (s : Globals × List Pixel) (hs : I s) (x y : Nat) : Gives Trapped I
      (pixel (execExpr n) sig.fn g.scope.functions.capac s x y) := by
    refine (hpixel s _ x y (by rw [hs.2.functions]) (hp.stays hs.2) hs.1).mono ?_
    rintro t ⟨hk', hs'⟩
    exact ⟨hk', hs.2.trans hs'⟩
  have hk₀ : Knows Γ ⟨k.vars, none⟩ g := hk.mono (List.Subset.refl _) (.inl rfl)
  have hloop : Gives Trapped I ((List.range w).foldlM (fun s x => (List.range h).foldlM
      (fun s y => pixel (execExpr n) sig.fn g.scope.functions.capac s x y) s) (g, [])) := by
    refine Gives.foldlM (fun x _ s hs => ?_) ⟨hk₀, .refl g⟩
    exact Gives.foldlM (fun y _ s hs => hstep s hs x y) hs
  rw [render]
  cases hall : (List.range w).foldlM (fun s x => (List.range h).foldlM
      (fun s y => pixel (execExpr n) sig.fn g.scope.functions.capac s x y) s) (g, []) with
  | error s =>
      rw [hall] at hloop
      exact hloop
  | ok t =>
      have hplaces : places t.2 = scan (List.range w) (List.range h) := columns_places hall
      exact hplaces

/-- What a check has found. -/
theorem of_checkText {code : CStr} (h : checkText Γ code = true) :
    ∃ tokens es q Δ k, tokenize code .init = .ok tokens ∧ parseAll tokens = .ok (es, q) ∧
      es.foldlM (checkTop Γ) ([], ⟨[], none⟩) = some (Δ, k) ∧
      ∃ sig ∈ Δ, sig.fn.fnName = fragmentName ∧ sig.fn.params.length = 2 ∧
        ∀ x ∈ sig.needs, x ∈ k.vars := by
  obtain ⟨⟨Δ, k⟩, hall, h⟩ := (Option.any_eq_true _ _).mp h
  obtain ⟨sig, hsig, hok⟩ := List.any_eq_true.mp h
  obtain ⟨tokens, htok, hall⟩ := Option.bind_eq_some_iff.mp hall
  obtain ⟨⟨es, q⟩, hparse, hfold⟩ := Option.bind_eq_some_iff.mp hall
  obtain ⟨hname, hlen, hmet⟩ := of_decide_eq_true hok
  exact ⟨tokens, es, q, Δ, k, toOption_eq_some.mp htok, toOption_eq_some.mp hparse, hfold, sig,
    hsig, hname, hlen, of_decide_eq_true hmet⟩

theorem registered_init (last : Value) : Registered Γ ([], ⟨[], none⟩) ⟨enviromentInit, last⟩ where
  provides _ hsig := by cases hsig
  others _ _ := rfl
  knows := by
    refine ⟨?_, ?_, ?_⟩
    · intro entry hentry
      cases hentry
    · intro x hx
      cases hx
    · intro τ hτ
      cases hτ

/-- `/etc/shder.lsp`. -/
def shaderText : CStr :=
  .lit ['(', 'p', 'r', 'i', 'n', 't', 'l', 'n', ' ', '"', 'H', 'e', 'l', 'l', 'o', ',', ' ', 'w',
    'o', 'r', 'l', 'd', '!', '"', ')', '\n', '\n', '(', 'd', 'e', 'f', 'u', 'n', ' ', 'f', 'r', 'a',
    'g', 'm', 'e', 'n', 't', ' ', '(', 'x', ' ', 'y', ')', ' ', '\n', ' ', ' ', ' ', ' ', '(', 'r',
    'e', 't', ' ', '0', ')', '\n', ')', '\n']

/-- A function, a variable that counts, and a fragment that calls the function and sets the
variable. -/
example : checkText (fun _ => .int) (.lit ['(', 'd', 'e', 'f', 'u', 'n', ' ', 'f', '(', 'a', ')',
    '(', 'r', 'e', 't', '(', '*', ' ', 'a', ' ', '2', ')', ')', ')', '(', 'g', 'l', 'o', 'b', ' ',
    'c', ' ', '0', ')', '(', 'd', 'e', 'f', 'u', 'n', ' ', 'f', 'r', 'a', 'g', 'm', 'e', 'n', 't',
    '(', 'x', ' ', 'y', ')', '(', 's', 'e', 't', ' ', 'c', '(', '+', ' ', 'c', ' ', '1', ')', ')',
    '(', 'r', 'e', 't', '(', 'f', ' ', 'c', ')', ')', ')']) = true := by
  decide +kernel

end Lisp
end RivOS
