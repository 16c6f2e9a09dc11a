import RivOS.Lisp.Tokenize

/-!
# Lisp — Expressions

`parseExpr` and `parseList` (`sbinSrc/de/lisp/lisp.c`), with the position in the tokens passed
along.  The two call each other, so they take a number of calls they may nest; every call reads a
token that no call before it has passed, so that twice the number of tokens is always enough
(`exprN_eq`).

* `parseAll_tokens`: expressions are parsed back from their tokens, to the last of them.
* `read_renders`: and from any text these are rendered in.
-/

namespace RivOS

namespace Lisp

/-- How the interpreter ends early. -/
inductive Stop where
  /-- A message, and a loop without end. -/
  | hang (msg : String)
  /-- `vectorAt` of an index that is not in use; ends like `hang`. -/
  | outOfBounds (index size : Nat)
  | exit (code : Nat)
  /-- A division the processor cannot do. -/
  | divideError
  /-- A read of what is not there. -/
  | undefined
  /-- No calls left: the model's own bound, not an end of the program. -/
  | fuel
deriving DecidableEq

/-- An element of a list, where there is one. -/
def itemAt {α : Type} (elems : List α) (ind : Nat) : Except Stop α :=
  match elems[ind]? with
  | some e => .ok e
  | none => .error (.outOfBounds ind elems.length)

def vectorAt {α : Type} (vec : Vector α) (ind : Nat) : Except Stop α := itemAt vec.elems ind

theorem itemAt_eq_ok {α : Type} {elems : List α} {i : Nat} {e : α} :
    itemAt elems i = .ok e ↔ elems[i]? = some e := by
  rw [itemAt]
  split <;> simp_all

inductive Expr where
  | int (intVal : Word)
  | string (strVal : List UInt8)
  | symbol (symbol : List UInt8)
  | list (items : List Expr)

/-! ### The parser -/

mutual

/-- `parseExpr`. -/
def exprN : Nat → Vector Token → Nat → Except Stop (Expr × Nat)
  | 0, _, _ => .error .fuel
  | n + 1, tokens, pos => do
      let tok ← vectorAt tokens pos
      match tok.type with
      | .intLit => .ok (.int (stoi tok.conts), pos + 1)
      | .strLit => .ok (.string tok.conts, pos + 1)
      | .ident => .ok (.symbol tok.conts, pos + 1)
      | .openParen => listN n tokens (pos + 1) .init
      | .closeParen => .error (.hang "Unknown symbol\n")

/-- The loop of `parseList`, with the items so far. -/
def listN : Nat → Vector Token → Nat → Vector Expr → Except Stop (Expr × Nat)
  | 0, _, _, _ => .error .fuel
  | n + 1, tokens, pos, items => do
      let tok ← vectorAt tokens pos
      if tok.type = .closeParen then .ok (.list items.elems, pos + 1)
      else
        let (child, pos) ← exprN n tokens pos
        listN n tokens pos (items.pushBack child)

end

def parseExpr (tokens : Vector Token) (pos : Nat) : Except Stop (Expr × Nat) :=
  exprN (2 * (tokens.size - pos) + 2) tokens pos

/-- `parseExpr` again and again, as long as there are tokens: the expressions, and `pos`. -/
def parseTurn (tokens : Vector Token) (s : List Expr × Nat) :
    Except Stop ((List Expr × Nat) ⊕ (List Expr × Nat)) :=
  if s.2 < tokens.size then
    (parseExpr tokens s.2).map fun r => .inl (s.1 ++ [r.1], r.2)
  else .ok (.inr s)

def parseAll (tokens : Vector Token) : Except Stop (List Expr × Nat) :=
  loop (parseTurn tokens) .fuel (fun s => tokens.size - s.2) ([], 0)

/-! ### Printed expressions -/

mutual

/-- The tokens an expression is printed as. -/
def Expr.tokens : Expr → List Token
  | .int v => [⟨decimal v.toNat, .intLit⟩]
  | .string s => [⟨s, .strLit⟩]
  | .symbol s => [⟨s, .ident⟩]
  | .list items => ⟨[40], .openParen⟩ :: (tokensAll items ++ [⟨[41], .closeParen⟩])

def tokensAll : List Expr → List Token
  | [] => []
  | e :: es => e.tokens ++ tokensAll es

end

/-- A name that `tokenize` takes for a symbol. -/
def Symbol (s : List UInt8) : Prop :=
  (∃ c w, s = c :: w ∧ isdigit c = false) ∧ ∀ c ∈ s, isIdent c = true

theorem symbol_of_all {c : UInt8} {w : List UInt8} (hc : isdigit c = false)
    (hw : (c :: w).all isIdent = true) : Symbol (c :: w) :=
  ⟨⟨c, w, rfl, hc⟩, List.all_eq_true.mp hw⟩

mutual

/-- The expressions that can be printed. -/
def Expr.Valid : Expr → Prop
  | .int v => v.toNat < 2 ^ 31
  | .string s => 34 ∉ s ∧ 0 ∉ s
  | .symbol s => Symbol s
  | .list items => ValidAll items

def ValidAll : List Expr → Prop
  | [] => True
  | e :: es => e.Valid ∧ ValidAll es

end

mutual

theorem Expr.tokens_valid : ∀ (e : Expr), e.Valid → ∀ t ∈ e.tokens, t.Valid
  | .int v, _, t, ht => by
      rw [List.mem_singleton.mp ht]
      exact ⟨decimal_ne_nil _, decimal_isdigit _⟩
  | .string s, hv, t, ht => by
      rw [List.mem_singleton.mp ht]
      exact hv.1
  | .symbol s, hv, t, ht => by
      rw [List.mem_singleton.mp ht]
      exact hv
  | .list items, hv, t, ht => by
      rcases List.mem_cons.mp ht with rfl | ht
      · rfl
      rcases List.mem_append.mp ht with ht | ht
      · exact tokens_valid items hv t ht
      · rw [List.mem_singleton.mp ht]
        rfl

/-- Every printed expression has a rendering. -/
theorem tokens_valid : ∀ (es : List Expr), ValidAll es → ∀ t ∈ tokensAll es, t.Valid
  | [], _, _, ht => by cases ht
  | e :: es, hv, t, ht => by
      rcases List.mem_append.mp ht with ht | ht
      · exact e.tokens_valid hv.1 t ht
      · exact tokens_valid es hv.2 t ht

end

variable {tokens : Vector Token} {n m pos : Nat} {e : Expr} {es : List Expr}

/-! ### The bound on the calls -/

mutual

/-- A call passes at least one token. -/
theorem exprN_pos : ∀ {n pos : Nat} {e : Expr} {q : Nat}, exprN n tokens pos = .ok (e, q) → pos < q
  | 0, _, _, _, h => by cases h
  | n + 1, pos, e, q, h => by
      obtain ⟨tok, -, h⟩ := bind_eq_ok.mp h
      split at h
      · cases h; omega
      · cases h; omega
      · cases h; omega
      · have := listN_pos h
        omega
      · cases h

theorem listN_pos : ∀ {n pos : Nat} {items : Vector Expr} {e : Expr} {q : Nat},
    listN n tokens pos items = .ok (e, q) → pos < q
  | 0, _, _, _, _, h => by cases h
  | n + 1, pos, items, e, q, h => by
      obtain ⟨tok, -, h⟩ := bind_eq_ok.mp h
      split at h
      · cases h
        omega
      · obtain ⟨⟨child, pos'⟩, h₁, h⟩ := bind_eq_ok.mp h
        have := exprN_pos h₁
        have := listN_pos h
        omega

end

theorem lt_size {tok : Token} (h : vectorAt tokens pos = .ok tok) : pos < tokens.size :=
  (List.getElem?_eq_some_iff.mp (itemAt_eq_ok.mp h)).1

mutual

/-- Above twice the number of tokens left, the bound does not matter. -/
theorem exprN_eq : ∀ {n m pos : Nat}, 2 * (tokens.size - pos) ≤ n → 0 < n →
    2 * (tokens.size - pos) ≤ m → 0 < m → exprN n tokens pos = exprN m tokens pos
  | 0, _, _, _, h, _, _ => by omega
  | _, 0, _, _, _, _, h => by omega
  | n + 1, m + 1, pos, hn, _, hm, _ => by
      rw [exprN, exprN]
      rcases htok : vectorAt tokens pos with s | tok
      · rfl
      · have := lt_size htok
        simp only [ok_bind]
        split
        · rfl
        · rfl
        · rfl
        · exact listN_eq (by omega) (by omega)
        · rfl

theorem listN_eq : ∀ {n m pos : Nat} {items : Vector Expr}, 2 * (tokens.size - pos) < n →
    2 * (tokens.size - pos) < m → listN n tokens pos items = listN m tokens pos items
  | 0, _, _, _, h, _ => by omega
  | _, 0, _, _, _, h => by omega
  | n + 1, m + 1, pos, items, hn, hm => by
      rw [listN, listN]
      rcases htok : vectorAt tokens pos with s | tok
      · rfl
      · have := lt_size htok
        simp only [ok_bind]
        split
        · rfl
        · have hexpr : exprN n tokens pos = exprN m tokens pos :=
            exprN_eq (by omega) (by omega) (by omega) (by omega)
          rw [hexpr]
          rcases hchild : exprN m tokens pos with s | ⟨child, pos'⟩
          · rfl
          · have := exprN_pos hchild
            exact listN_eq (by omega) (by omega)

end

/-! ### Parsing what was printed -/

theorem tokens_pos (e : Expr) : 0 < e.tokens.length := by
  cases e <;> simp [Expr.tokens]

theorem vectorAt_append {pre post : List Token} {tok : Token}
    (h : tokens.elems = pre ++ tok :: post) : vectorAt tokens pre.length = .ok tok := by
  refine itemAt_eq_ok.mpr ?_
  rw [h, List.getElem?_append_right (Nat.le_refl _), Nat.sub_self]
  rfl

/-- The first token of an expression is not a closing parenthesis. -/
theorem tokens_head (e : Expr) : ∃ tok rest, e.tokens = tok :: rest ∧ tok.type ≠ .closeParen := by
  cases e with
  | int v => exact ⟨_, _, rfl, by simp⟩
  | string s => exact ⟨_, _, rfl, by simp⟩
  | symbol s => exact ⟨_, _, rfl, by simp⟩
  | list items => exact ⟨_, _, rfl, by simp⟩

mutual

/-- An expression is parsed back from its tokens, wherever they stand. -/
theorem exprN_tokens : ∀ (e : Expr), e.Valid → ∀ {n : Nat} {pre post : List Token},
    tokens.elems = pre ++ (e.tokens ++ post) → e.tokens.length ≤ n →
    exprN n tokens pre.length = .ok (e, pre.length + e.tokens.length)
  | e, _, 0, _, _, _, hn => by
      have := tokens_pos e
      omega
  | .int v, hv, n + 1, pre, post, h, _ => by
      have hval : stoi (decimal v.toNat) = v := by
        rw [stoi_digits (decimal_isdigit _), decVal_decimal, BitVec.ofNat_toNat,
          BitVec.setWidth_eq]
      rw [exprN, vectorAt_append h]
      simp only [ok_bind, hval]
      rfl
  | .string s, _, n + 1, pre, post, h, _ => by
      rw [exprN, vectorAt_append h]
      rfl
  | .symbol s, _, n + 1, pre, post, h, _ => by
      rw [exprN, vectorAt_append h]
      rfl
  | .list items, hv, n + 1, pre, post, h, hn => by
      have hopen : tokens.elems = (pre ++ [⟨[40], .openParen⟩]) ++
          (tokensAll items ++ ⟨[41], .closeParen⟩ :: post) := by
        rw [h, Expr.tokens]
        simp
      have hroom : (tokensAll items).length < n := by
        simp [Expr.tokens] at hn
        omega
      have hloop := @listN_tokens items hv n _ _ .init hopen hroom
      rw [List.length_append, List.length_singleton] at hloop
      rw [exprN, vectorAt_append h, ok_bind]
      refine hloop.trans ?_
      simp [Expr.tokens]
      omega

theorem listN_tokens : ∀ (es : List Expr), ValidAll es →
    ∀ {n : Nat} {pre post : List Token} {items : Vector Expr},
    tokens.elems = pre ++ (tokensAll es ++ ⟨[41], .closeParen⟩ :: post) →
    (tokensAll es).length < n →
    listN n tokens pre.length items
      = .ok (.list (items.elems ++ es), pre.length + (tokensAll es).length + 1)
  | _, _, 0, _, _, _, _, hn => by omega
  | [], _, n + 1, pre, post, items, h, _ => by
      rw [listN, vectorAt_append h]
      simp [ok_bind, tokensAll]
  | e :: es, hv, n + 1, pre, post, items, h, hn => by
      obtain ⟨tok, rest, ht, hne⟩ := tokens_head e
      have hlen : (tokensAll (e :: es)).length = e.tokens.length + (tokensAll es).length := by
        rw [tokensAll, List.length_append]
      have hpos := tokens_pos e
      have hhere : tokens.elems
          = pre ++ (e.tokens ++ (tokensAll es ++ ⟨[41], .closeParen⟩ :: post)) := by
        rw [h, tokensAll, List.append_assoc]
      have hnext : tokens.elems
          = (pre ++ e.tokens) ++ (tokensAll es ++ ⟨[41], .closeParen⟩ :: post) := by
        rw [hhere, List.append_assoc]
      have htok : vectorAt tokens pre.length = .ok tok := by
        rw [ht] at hhere
        exact vectorAt_append hhere
      have hchild := exprN_tokens e hv.1 (n := n) hhere (by omega)
      have hrest := @listN_tokens es hv.2 n _ _ (items.pushBack e) hnext (by omega)
      rw [List.length_append] at hrest
      rw [listN, htok, ok_bind, if_neg hne, hchild]
      refine hrest.trans ?_
      simp [hlen]
      omega

end

theorem parseExpr_tokens {pre post : List Token} (hv : e.Valid)
    (h : tokens.elems = pre ++ (e.tokens ++ post)) :
    parseExpr tokens pre.length = .ok (e, pre.length + e.tokens.length) := by
  refine exprN_tokens e hv h ?_
  have hsize : tokens.size = pre.length + (e.tokens.length + post.length) := by
    rw [Vector.size, h, List.length_append, List.length_append]
  omega

theorem shrinks_parseTurn : Shrinks (parseTurn tokens) fun s => tokens.size - s.2 := by
  intro s t h
  rw [parseTurn] at h
  split at h
  · next hlt =>
      obtain ⟨⟨e, q⟩, he, e'⟩ := map_eq_ok.mp h
      cases e'
      have := exprN_pos he
      simp only
      omega
  · cases h

theorem parseLoop_tokens {pre : List Token} {done : List Expr} (hv : ValidAll es)
    (h : tokens.elems = pre ++ tokensAll es) :
    loop (parseTurn tokens) .fuel (fun s => tokens.size - s.2) (done, pre.length)
      = .ok (done ++ es, tokens.size) := by
  induction es generalizing pre done with
  | nil =>
      have hsize : pre.length = tokens.size := by
        rw [Vector.size, h, tokensAll, List.append_nil]
      refine loop_leave ?_
      rw [parseTurn, if_neg (by simp only; omega), hsize, List.append_nil]
  | cons e es ih =>
      have hpos := tokens_pos e
      have hlt : pre.length < tokens.size := by
        rw [Vector.size, h, tokensAll]
        simp only [List.length_append]
        omega
      have hturn : parseTurn tokens (done, pre.length)
          = .ok (.inl (done ++ [e], (pre ++ e.tokens).length)) := by
        rw [parseTurn, if_pos hlt, parseExpr_tokens hv.1 h, List.length_append]
        rfl
      rw [loop_turn shrinks_parseTurn hturn, ih hv.2 (by rw [h, tokensAll, List.append_assoc])]
      simp

theorem parseAll_tokens (hv : ValidAll es) (h : tokens.elems = tokensAll es) :
    parseAll tokens = .ok (es, tokens.size) :=
  @parseLoop_tokens _ _ [] [] hv h

/-- **The reader accepts what is printed.** -/
theorem read_renders {src : CStr} (hv : ValidAll es) (h : Renders (tokensAll es) src.chars) :
    ∃ tokens, tokenize src .init = .ok tokens ∧ parseAll tokens = .ok (es, tokens.size) := by
  obtain ⟨tokens, htok, helems⟩ := tokenize_renders h
  exact ⟨tokens, htok, parseAll_tokens hv helems⟩

/-- `( + x )`, with a blank behind every token. -/
def someExprs : List Expr := [.list [.symbol [43], .symbol [120]]]

theorem read_someExprs :
    ∃ tokens, tokenize ⟨spaced (tokensAll someExprs), by decide⟩ .init = .ok tokens ∧
      parseAll tokens = .ok (someExprs, tokens.size) := by
  have hsymbol : Symbol [43] ∧ Symbol [120] :=
    ⟨symbol_of_all rfl rfl, symbol_of_all rfl rfl⟩
  have hvalid : ValidAll someExprs := ⟨⟨hsymbol.1, hsymbol.2, trivial⟩, trivial⟩
  refine read_renders hvalid (renders_spaced fun t ht => ?_)
  exact tokens_valid _ hvalid t ht

end Lisp
end RivOS
