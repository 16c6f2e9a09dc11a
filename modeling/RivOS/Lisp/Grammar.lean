import RivOS.Lisp.Depth

/-!
# Lisp — What the reader accepts

`parseExpr` and `parseList` (`sbinSrc/de/lisp/lisp.c`) against the grammar of the language: a number,
a string and a name are one token each, and a list is the tokens of its items between two
parentheses (`Spells`).  A number can be spelled in more than one way, since leading zeros and
digits beyond 32 bits count for nothing.

* `parseAll_iff`: the reader comes to its end over some tokens exactly where they spell a sequence
  of expressions, and gives that sequence.
* `accepts_iff_balanced`: there is one exactly where the parentheses balance.
-/

namespace RivOS

namespace Lisp

/-- The expression that one token is. -/
def Token.atom (t : Token) : Option Expr :=
  match t.type with
  | .intLit => some (.int (stoi t.conts))
  | .strLit => some (.string t.conts)
  | .ident => some (.symbol t.conts)
  | .openParen | .closeParen => none

/-- The tokens spell the expressions, one after the other. -/
inductive Spells : List Expr → List Token → Prop where
  | nil : Spells [] []
  | atom {t : Token} {e : Expr} {es : List Expr} {ts : List Token} (h : t.atom = some e)
      (hs : Spells es ts) : Spells (e :: es) (t :: ts)
  | list (a b : List UInt8) {items es : List Expr} {ts ts' : List Token} (h : Spells items ts)
      (h' : Spells es ts') :
      Spells (.list items :: es) (⟨a, .openParen⟩ :: (ts ++ ⟨b, .closeParen⟩ :: ts'))

/-- The parentheses of the tokens balance, behind `depth` that have been opened. -/
def balanced : List Token → Nat → Bool
  | [], depth => depth = 0
  | t :: ts, depth =>
      match t.type with
      | .openParen => balanced ts (depth + 1)
      | .closeParen => 0 < depth && balanced ts (depth - 1)
      | .intLit | .strLit | .ident => balanced ts depth

variable {tokens : Vector Token} {n pos q : Nat} {e : Expr} {es fs : List Expr}
  {ts rest : List Token} {items : Vector Expr} {tok : Token}

theorem Spells.append {us : List Token} (h : Spells es ts) (h' : Spells fs us) :
    Spells (es ++ fs) (ts ++ us) := by
  induction h with
  | nil => exact h'
  | atom hatom _ ih => exact .atom hatom ih
  | list a b h _ _ ih =>
      rw [List.cons_append, List.cons_append, List.append_assoc, List.cons_append]
      exact .list a b h ih

/-! ### What is accepted is spelled -/

/-- What is left of the tokens. -/
def left (tokens : Vector Token) (pos : Nat) : List Token := tokens.elems.drop pos

theorem left_of_vectorAt (h : vectorAt tokens pos = .ok tok) :
    left tokens pos = tok :: left tokens (pos + 1) := by
  obtain ⟨hlt, rfl⟩ := List.getElem?_eq_some_iff.mp (itemAt_eq_ok.mp h)
  exact List.drop_eq_getElem_cons hlt

/-- One call of `parseExpr`, by its token. -/
theorem exprN_token (h : vectorAt tokens pos = .ok tok) :
    exprN (n + 1) tokens pos
      = match tok.atom with
        | some e => .ok (e, pos + 1)
        | none => if tok.type = .openParen then listN n tokens (pos + 1) .init
            else .error (.hang "Unknown symbol\n") := by
  obtain ⟨w, type⟩ := tok
  rw [exprN, h, ok_bind]
  cases type <;> rfl

mutual

theorem exprN_spells : ∀ {n pos : Nat} {e : Expr} {q : Nat}, exprN n tokens pos = .ok (e, q) →
    q ≤ tokens.size ∧ ∃ ts, left tokens pos = ts ++ left tokens q ∧ Spells [e] ts
  | 0, _, _, _, h => by cases h
  | n + 1, pos, e, q, h => by
      obtain ⟨tok, htok, -⟩ := bind_eq_ok.mp h
      have hleft := left_of_vectorAt htok
      rw [exprN_token htok] at h
      split at h
      · next hatom =>
          cases h
          exact ⟨lt_size htok, [tok], hleft, .atom hatom .nil⟩
      · split at h
        · next htype =>
            obtain ⟨hq, es, ts, b, he, hrest, hs⟩ := listN_spells h
            obtain rfl : e = .list es := he
            obtain ⟨w, type⟩ := tok
            cases htype
            refine ⟨hq, ⟨w, .openParen⟩ :: (ts ++ [⟨b, .closeParen⟩]), ?_, .list w b hs .nil⟩
            rw [hleft, hrest]
            simp
        · cases h

theorem listN_spells : ∀ {n pos : Nat} {items : Vector Expr} {e : Expr} {q : Nat},
    listN n tokens pos items = .ok (e, q) →
    q ≤ tokens.size ∧ ∃ es ts b, e = .list (items.elems ++ es) ∧
      left tokens pos = ts ++ ⟨b, .closeParen⟩ :: left tokens q ∧ Spells es ts
  | 0, _, _, _, _, h => by cases h
  | n + 1, pos, items, e, q, h => by
      obtain ⟨⟨w, type⟩, htok, h⟩ := bind_eq_ok.mp h
      have hleft := left_of_vectorAt htok
      split at h
      · next htype =>
          cases htype
          cases h
          exact ⟨lt_size htok, [], [], w, by rw [List.append_nil], hleft, .nil⟩
      · obtain ⟨⟨child, pos'⟩, hchild, h⟩ := bind_eq_ok.mp h
        obtain ⟨-, ts, hts, hs⟩ := exprN_spells hchild
        obtain ⟨hq, es, us, b, rfl, hus, hs'⟩ := listN_spells h
        refine ⟨hq, child :: es, ts ++ us, b, by simp, ?_, hs.append hs'⟩
        rw [hts, hus, List.append_assoc]

end

/-! ### What is spelled is accepted -/

theorem vectorAt_of_left (h : left tokens pos = tok :: rest) :
    vectorAt tokens pos = .ok tok ∧ left tokens (pos + 1) = rest := by
  have htok : vectorAt tokens pos = .ok tok := by
    refine itemAt_eq_ok.mpr ?_
    have hhead := congrArg List.head? h
    rwa [left, List.head?_drop] at hhead
  refine ⟨htok, ?_⟩
  have htail := (left_of_vectorAt htok).symm.trans h
  exact (List.cons.inj htail).2

theorem left_add (h : left tokens pos = ts ++ rest) : left tokens (pos + ts.length) = rest := by
  rw [left] at h ⊢
  rw [← List.drop_drop, h, List.drop_left]

theorem atom_ne_close (h : tok.atom = some e) : tok.type ≠ .closeParen := by
  intro htype
  rw [Token.atom, htype] at h
  cases h

/-- The items of a list, up to the parenthesis that closes it. -/
theorem Spells.listN (h : Spells es ts) : ∀ {n pos : Nat} {items : Vector Expr} {b : List UInt8}
    {rest : List Token}, left tokens pos = ts ++ ⟨b, .closeParen⟩ :: rest → ts.length < n →
    listN n tokens pos items = .ok (.list (items.elems ++ es), pos + ts.length + 1) := by
  induction h with
  | nil =>
      intro n pos items b rest hleft hn
      obtain ⟨n, rfl⟩ := Nat.exists_eq_succ_of_ne_zero (Nat.ne_of_gt hn)
      rw [Lisp.listN, (vectorAt_of_left hleft).1, ok_bind, if_pos rfl, List.append_nil]
      rfl
  | @atom t e es ts hatom _ ih =>
      intro n pos items b rest hleft hn
      rw [List.length_cons] at hn ⊢
      obtain ⟨n, rfl⟩ : ∃ k, n = k + 2 := ⟨n - 2, by omega⟩
      obtain ⟨htok, hrest⟩ := vectorAt_of_left hleft
      have hexpr : exprN (n + 1) tokens pos = .ok (e, pos + 1) := by rw [exprN_token htok, hatom]
      rw [Lisp.listN, htok, ok_bind, if_neg (atom_ne_close hatom), hexpr]
      refine (ih hrest (by omega)).trans ?_
      rw [Vector.pushBack_elems, List.append_assoc, List.singleton_append]
      congr 2
      omega
  | @list a c items' es' ts ts' _ _ ih ih' =>
      intro n pos items b rest hleft hn
      simp only [List.length_cons, List.length_append] at hn ⊢
      obtain ⟨n, rfl⟩ : ∃ k, n = k + 3 := ⟨n - 3, by omega⟩
      rw [List.cons_append, List.append_assoc, List.cons_append] at hleft
      obtain ⟨htok, hinner⟩ := vectorAt_of_left hleft
      have hsub : exprN (n + 2) tokens pos = .ok (.list items', pos + 1 + ts.length + 1) := by
        rw [exprN_token htok]
        exact ih hinner (by omega)
      have hbehind : left tokens (pos + 1 + ts.length + 1) = ts' ++ ⟨b, .closeParen⟩ :: rest :=
        (vectorAt_of_left (left_add hinner)).2
      rw [Lisp.listN, htok, ok_bind, if_neg (by simp), hsub]
      refine (ih' hbehind (by omega)).trans ?_
      rw [Vector.pushBack_elems, List.append_assoc, List.singleton_append]
      congr 2
      omega

theorem left_length (h : left tokens pos = ts) : ts.length = tokens.size - pos := by
  rw [← h, left, List.length_drop]
  rfl

/-- The expressions of a whole text. -/
theorem Spells.parseLoop (h : Spells es ts) : ∀ {pos : Nat} {done : List Expr},
    left tokens pos = ts → pos ≤ tokens.size →
    loop (parseTurn tokens) .fuel (fun s => tokens.size - s.2) (done, pos)
      = .ok (done ++ es, tokens.size) := by
  induction h with
  | nil =>
      intro pos done hleft hpos
      have hlen := left_length hleft
      rw [List.length_nil] at hlen
      refine loop_leave ?_
      rw [parseTurn, if_neg (by simp only; omega), List.append_nil]
      congr 3
      omega
  | @atom t e es ts hatom _ ih =>
      intro pos done hleft hpos
      obtain ⟨htok, hrest⟩ := vectorAt_of_left hleft
      have hlt := lt_size htok
      have hturn : parseTurn tokens (done, pos) = .ok (.inl (done ++ [e], pos + 1)) := by
        rw [parseTurn, if_pos hlt, parseExpr, exprN_token htok, hatom]
        rfl
      rw [loop_turn shrinks_parseTurn hturn, ih hrest (by omega), List.append_assoc]
      rfl
  | @list a b items es ts ts' hitems _ _ ih =>
      intro pos done hleft hpos
      obtain ⟨htok, hinner⟩ := vectorAt_of_left hleft
      have hlt := lt_size htok
      have hlen := left_length hinner
      rw [List.length_append, List.length_cons] at hlen
      have hexpr : parseExpr tokens pos = .ok (.list items, pos + 1 + ts.length + 1) := by
        rw [parseExpr, exprN_token htok]
        exact hitems.listN hinner (by omega)
      have hturn : parseTurn tokens (done, pos)
          = .ok (.inl (done ++ [.list items], pos + 1 + ts.length + 1)) := by
        rw [parseTurn, if_pos hlt, hexpr]
        rfl
      rw [loop_turn shrinks_parseTurn hturn,
        ih (vectorAt_of_left (left_add hinner)).2 (by omega), List.append_assoc]
      rfl

/-- What the reader has read so far spells the expressions so far. -/
theorem parseAll_spells (h : parseAll tokens = .ok (es, pos)) :
    Spells es tokens.elems ∧ pos = tokens.size := by
  let I (s : List Expr × Nat) : Prop :=
    s.2 ≤ tokens.size ∧ ∃ ts, tokens.elems = ts ++ left tokens s.2 ∧ Spells s.1 ts
  have hturn {s t : List Expr × Nat} (hs : I s) (ht : parseTurn tokens s = .ok (.inl t)) : I t := by
    obtain ⟨-, ts, hts, hsp⟩ := hs
    rw [parseTurn] at ht
    split at ht
    · obtain ⟨⟨e, q⟩, he, heq⟩ := map_eq_ok.mp ht
      cases heq
      obtain ⟨hq, us, hus, hsp'⟩ := exprN_spells he
      refine ⟨hq, ts ++ us, ?_, hsp.append hsp'⟩
      rw [hts, hus, List.append_assoc]
    · cases ht
  refine loop_inv (I := I) (Q := fun r => Spells r.1 tokens.elems ∧ r.2 = tokens.size) hturn
    (fun {s r} hs hleave => ?_) ⟨Nat.zero_le _, [], rfl, .nil⟩ h
  obtain ⟨hle, ts, hts, hsp⟩ := hs
  rw [parseTurn] at hleave
  split at hleave
  · next hlt =>
      obtain ⟨x, -, heq⟩ := map_eq_ok.mp hleave
      cases heq
  · next hlt =>
      cases hleave
      have hend : left tokens s.2 = [] := List.drop_eq_nil_of_le (Nat.le_of_not_lt hlt)
      rw [hend, List.append_nil] at hts
      rw [hts]
      exact ⟨hsp, by omega⟩

/-- **What the reader gives**: the expressions that the tokens spell, to the last of them. -/
theorem parseAll_iff :
    parseAll tokens = .ok (es, pos) ↔ Spells es tokens.elems ∧ pos = tokens.size := by
  constructor
  · exact parseAll_spells
  · rintro ⟨h, rfl⟩
    have hleft : left tokens 0 = tokens.elems := rfl
    exact h.parseLoop hleft (Nat.zero_le _)

/-! ### Parentheses -/

/-- Expressions leave the depth as it is. -/
theorem Spells.balanced (h : Spells es ts) : ∀ (us : List Token) (depth : Nat),
    balanced (ts ++ us) depth = Lisp.balanced us depth := by
  induction h with
  | nil => exact fun us depth => rfl
  | @atom t e es ts hatom _ ih =>
      intro us depth
      obtain ⟨w, type⟩ := t
      rw [List.cons_append, Lisp.balanced]
      cases type with
      | openParen | closeParen => cases hatom
      | _ => exact ih us depth
  | list a b _ _ ih ih' =>
      intro us depth
      rw [List.cons_append, Lisp.balanced, List.append_assoc, List.cons_append]
      dsimp only
      rw [ih, Lisp.balanced]
      simpa using ih' us depth

/-- Balanced tokens begin with some expressions, and then end, or close what was opened before. -/
theorem exists_spells_of_balanced : ∀ {ts : List Token} {depth : Nat}, balanced ts depth = true →
    ∃ es us rest, Spells es us ∧ ts = us ++ rest ∧ (rest = [] ∧ depth = 0 ∨
      ∃ b r d, rest = ⟨b, .closeParen⟩ :: r ∧ depth = d + 1 ∧ balanced r d = true) := by
  intro ts
  induction hn : ts.length using Nat.strongRecOn generalizing ts with
  | _ n ih =>
      intro depth h
      rcases ts with _ | ⟨⟨w, type⟩, ts⟩
      · exact ⟨[], [], [], .nil, rfl, .inl ⟨rfl, by simpa [balanced] using h⟩⟩
      · rw [List.length_cons] at hn
        -- a token that is an expression of its own
        have atom {e : Expr} (hatom : Token.atom ⟨w, type⟩ = some e) (h : balanced ts depth = true) :
            ∃ es us rest, Spells es us ∧ ⟨w, type⟩ :: ts = us ++ rest ∧ (rest = [] ∧ depth = 0 ∨
              ∃ b r d, rest = ⟨b, .closeParen⟩ :: r ∧ depth = d + 1 ∧ balanced r d = true) := by
          obtain ⟨es, us, rest, hs, rfl, hrest⟩ := ih ts.length (by omega) rfl h
          exact ⟨e :: es, _ :: us, rest, .atom hatom hs, rfl, hrest⟩
        cases type with
        | intLit | strLit | ident => exact atom rfl h
        | closeParen =>
            cases depth with
            | zero => cases h
            | succ d => exact ⟨[], [], _, .nil, rfl, .inr ⟨w, ts, d, rfl, rfl, by simpa [balanced] using h⟩⟩
        | openParen =>
            obtain ⟨items, us, rest, hitems, rfl, hrest⟩ := ih ts.length (by omega) rfl h
            rcases hrest with ⟨-, h0⟩ | ⟨b, r, d, rfl, hd, hr⟩
            · cases h0
            · obtain rfl : depth = d := Nat.succ.inj hd
              rw [List.length_append, List.length_cons] at hn
              obtain ⟨es, vs, rest, hes, rfl, hrest⟩ := ih r.length (by omega) rfl hr
              exact ⟨.list items :: es, _, rest, .list w b hitems hes, by simp, hrest⟩

end Lisp
end RivOS
