import RivOS.Lisp.Tokenize

/-!
# Lisp — Texts that do not end inside a string or a comment

Two of the scans in `tokenize` (`sbinSrc/de/lisp/lisp.c`) ask for their own delimiter only: the one
for the quote that closes a string, and the one for the newline that ends a comment.  Neither stops
at the NUL.  The scans for digits and for the characters of a name do, since the NUL is neither.

`Closed text` says that the text does not end inside a string or a comment.

* `tokenize_closed`: the tokenizer comes to its end inside the text exactly on closed texts, and
  every token it emits is then a parenthesis or a part of the text.
-/

namespace RivOS

namespace Lisp

/-- What a character of a text stands in. -/
inductive Place where
  | code
  | string
  | comment
deriving DecidableEq

/-- The place behind a character. -/
def Place.next : Place → UInt8 → Place
  | .code, c => if c = 34 then .string else if c = 59 then .comment else .code
  | .string, c => if c = 34 then .code else .string
  | .comment, c => if c = 10 then .code else .comment

/-- The text ends in no string and no comment. -/
def Closed (text : List UInt8) : Prop := text.foldl Place.next .code = .code

instance : DecidablePred Closed := fun text => decEq (text.foldl Place.next .code) .code

/-- A parenthesis, or a part of the text. -/
def Token.From (text : List UInt8) (t : Token) : Prop :=
  match t.type with
  | .openParen => t.conts = [40]
  | .closeParen => t.conts = [41]
  | .strLit | .intLit | .ident => t.conts <:+: text

variable {v : Vector Token} {c : UInt8} {s t r w text : List UInt8} {tok : Token}

theorem Token.From.mono (h : tok.From r) (hr : r <:+: text) : tok.From text := by
  obtain ⟨conts, type⟩ := tok
  cases type with
  | openParen | closeParen => exact h
  | strLit | intLit | ident => exact List.IsInfix.trans h hr

/-! ### Places -/

theorem foldl_stays {p : Place} (h : ∀ c ∈ s, p.next c = p) : s.foldl Place.next p = p := by
  induction s with
  | nil => rfl
  | cons c s ih =>
      rw [List.foldl_cons, h c (by simp)]
      exact ih fun a ha => h a (by simp [ha])

theorem string_of_absent (h : 34 ∉ s) : s.foldl Place.next .string = .string :=
  foldl_stays fun c hc => by simp [Place.next, ne_of_mem_of_not_mem hc h]

theorem comment_of_absent (h : 10 ∉ s) : s.foldl Place.next .comment = .comment :=
  foldl_stays fun c hc => by simp [Place.next, ne_of_mem_of_not_mem hc h]

theorem closed_string (h : 34 ∉ s) : Closed (34 :: (s ++ 34 :: r)) ↔ Closed r := by
  simp [Closed, Place.next, string_of_absent h]

theorem closed_comment (h : 10 ∉ s) : Closed (59 :: (s ++ 10 :: r)) ↔ Closed r := by
  simp [Closed, Place.next, comment_of_absent h]

theorem not_closed_string (h : 34 ∉ s) : ¬ Closed (34 :: s) := by
  simp [Closed, Place.next, string_of_absent h]

theorem not_closed_comment (h : 10 ∉ s) : ¬ Closed (59 :: s) := by
  simp [Closed, Place.next, comment_of_absent h]

/-- Characters that open nothing. -/
theorem closed_append (h : ∀ c ∈ w, c ≠ 34 ∧ c ≠ 59) : Closed (w ++ r) ↔ Closed r := by
  induction w with
  | nil => exact Iff.rfl
  | cons c w ih =>
      obtain ⟨h34, h59⟩ := h c (by simp)
      have hw := ih fun a ha => h a (by simp [ha])
      simpa [Closed, Place.next, h34, h59] using hw

/-! ### One turn of the tokenizer -/

/-- The tokenizer gets from `text` to a shorter end of it. -/
def Advances (v : Vector Token) (text : List UInt8) : Prop :=
  ∃ u r out, tokenLoop (v, text ++ [0]) = tokenLoop (u, r ++ [0]) ∧ u.elems = v.elems ++ out ∧
    (∀ tok ∈ out, tok.From text) ∧ r <:+ text ∧ r.length < text.length ∧ (Closed text ↔ Closed r)

/-- The tokenizer leaves the text at its end. -/
def RunsOut (v : Vector Token) (text : List UInt8) : Prop :=
  tokenLoop (v, text ++ [0]) = .error .undefined ∧ ¬ Closed text

/-- A character that is passed over, or is a token of its own. -/
theorem advances_char {u : Vector Token} (out : List Token) (hc : c ≠ 0)
    (hopen : c ≠ 34 ∧ c ≠ 59)
    (hb : branch (v, c :: (t ++ [0])) c = .ok (u, c :: (t ++ [0]))) (hu : u.elems = v.elems ++ out)
    (hout : ∀ tok ∈ out, tok.From (c :: t)) : Advances v (c :: t) := by
  refine ⟨u, t, out, tokenLoop_branch hc hb, hu, hout, List.suffix_cons c t, by simp, ?_⟩
  exact closed_append (w := [c]) (by simpa using hopen)

theorem tokenLoop_stops (hc : c ≠ 0) {e : Halt} (hb : branch (v, c :: t) c = .error e) :
    tokenLoop (v, c :: t) = .error e := by
  rw [tokenLoop, loop_eq shrinks_tokenTurn]
  simp only [tokenTurn, Ptr.read_cons, ok_bind, hc, if_false, hb]
  rfl

/-- A string: closed at its second quote, or not at all. -/
theorem string_turn (t : List UInt8) : Advances v (34 :: t) ∨ RunsOut v (34 :: t) := by
  by_cases h : 34 ∈ t
  · obtain ⟨s, r, rfl, hs⟩ := List.eq_append_cons_of_mem h
    have hscan : Ptr.scan (s ++ 34 :: (r ++ [0])) (· = 34) = .ok (s, 34 :: (r ++ [0])) :=
      Ptr.scan_char hs
    have hb : branch (v, 34 :: (s ++ 34 :: (r ++ [0]))) 34
        = .ok (v.pushBack ⟨s, .strLit⟩, 34 :: (r ++ [0])) := by
      simp only [branch_quote, string, Ptr.add_one_cons, ok_bind, hscan]
    have hloop := tokenLoop_branch (by decide) hb
    refine .inl ⟨v.pushBack ⟨s, .strLit⟩, r, [⟨s, .strLit⟩], by simpa using hloop, by simp, ?_, ?_,
      by simp; omega, closed_string hs⟩
    · intro tok htok
      rw [List.mem_singleton.mp htok]
      exact ⟨[34], 34 :: r, by simp⟩
    · exact ⟨34 :: (s ++ [34]), by simp⟩
  · have hscan : Ptr.scan (t ++ [0]) (· = 34) = .error .undefined :=
      Ptr.scan_absent (by simpa using h)
    have hb : branch (v, 34 :: (t ++ [0])) 34 = .error .undefined := by
      simp only [branch_quote, string, Ptr.add_one_cons, ok_bind, hscan]
      rfl
    exact .inr ⟨tokenLoop_stops (by decide) hb, not_closed_string h⟩

/-- A comment: up to its newline, or to nowhere. -/
theorem comment_turn (t : List UInt8) : Advances v (59 :: t) ∨ RunsOut v (59 :: t) := by
  by_cases h : 10 ∈ t
  · obtain ⟨s, r, rfl, hs⟩ := List.eq_append_cons_of_mem h
    have hscan : Ptr.scan (59 :: (s ++ 10 :: (r ++ [0]))) (· = 10)
        = .ok (59 :: s, 10 :: (r ++ [0])) :=
      Ptr.scan_char (w := 59 :: s) (by simpa using hs)
    have hb : branch (v, 59 :: (s ++ 10 :: (r ++ [0]))) 59 = .ok (v, 10 :: (r ++ [0])) := by
      simp only [branch_semicolon, comment, hscan, ok_bind]
    have hloop := tokenLoop_branch (by decide) hb
    refine .inl ⟨v, r, [], by simpa using hloop, by simp, by simp, ?_, by simp; omega,
      closed_comment hs⟩
    exact ⟨59 :: (s ++ [10]), by simp⟩
  · have hscan : Ptr.scan (59 :: (t ++ [0])) (· = 10) = .error .undefined :=
      Ptr.scan_absent (by simpa using h)
    have hb : branch (v, 59 :: (t ++ [0])) 59 = .error .undefined := by
      simp only [branch_semicolon, comment, hscan]
      rfl
    exact .inr ⟨tokenLoop_stops (by decide) hb, not_closed_comment h⟩

/-- A number or a name. -/
theorem word_turn {P : UInt8 → Bool} {type : TokenType}
    (hb : ∀ s : Tokens, c ≠ 0 ∧ branch s c = word s P type) (hc : P c = true)
    (hP : ∀ a, P a = true → isIdent a = true) (htype : type = .intLit ∨ type = .ident) :
    Advances v (c :: t) := by
  have h0 : P 0 = false := by
    rw [Bool.eq_false_iff]
    intro h
    exact absurd (hP 0 h) (by decide)
  let w := t.takeWhile P
  let r := t.dropWhile P
  have hwr : c :: t = (c :: w) ++ r := by
    rw [List.cons_append, List.takeWhile_append_dropWhile]
  have hw : ∀ a ∈ c :: w, P a = true :=
    List.forall_mem_cons.mpr ⟨hc, fun a ha => List.mem_takeWhile_imp ha⟩
  have hloop : tokenLoop (v, c :: t ++ [0]) = tokenLoop (v.pushBack ⟨c :: w, type⟩, r ++ [0]) := by
    rw [hwr, List.append_assoc]
    exact tokenLoop_word hb hw (Ptr.dropWhile_head h0 t)
  have hopen : ∀ a ∈ c :: w, a ≠ 34 ∧ a ≠ 59 := by
    intro a ha
    have hid := hP a (hw a ha)
    constructor
    · rintro rfl
      exact absurd hid (by decide)
    · rintro rfl
      exact absurd hid (by decide)
  refine ⟨_, r, [⟨c :: w, type⟩], hloop, by simp, ?_, ?_, ?_, ?_⟩
  · intro tok htok
    rw [List.mem_singleton.mp htok]
    have hin : c :: w <:+: c :: t := ⟨[], r, by rw [hwr]; rfl⟩
    rcases htype with rfl | rfl
    · exact hin
    · exact hin
  · exact ⟨c :: w, hwr.symm⟩
  · rw [hwr]
    simp
  · rw [hwr]
    exact closed_append hopen

/-- **One turn**, by the character at `src`. -/
theorem tokenLoop_step (v : Vector Token) (hc : c ≠ 0) (t : List UInt8) :
    Advances v (c :: t) ∨ RunsOut v (c :: t) := by
  by_cases h34 : c = 34
  · rw [h34]
    exact string_turn t
  by_cases h59 : c = 59
  · rw [h59]
    exact comment_turn t
  have hopen : c ≠ 34 ∧ c ≠ 59 := ⟨h34, h59⟩
  refine .inl ?_
  by_cases hskip : isSkippable c = true
  · exact advances_char [] hc hopen (by rw [branch, if_pos hskip]) (by simp) (by simp)
  by_cases h40 : c = 40
  · subst h40
    exact advances_char [⟨[40], .openParen⟩] hc hopen (branch_paren _).1 (by simp)
      (by simp [Token.From])
  by_cases h41 : c = 41
  · subst h41
    exact advances_char [⟨[41], .closeParen⟩] hc hopen (branch_paren _).2 (by simp)
      (by simp [Token.From])
  by_cases hid : isIdent c = true
  · have hb (s : Tokens) := branch_word s hid
    by_cases hdig : isdigit c = true
    · simp only [hdig, if_true] at hb
      exact word_turn hb hdig (fun a => isIdent_of_isdigit) (.inl rfl)
    · simp only [hdig] at hb
      exact word_turn hb hid (fun a h => h) (.inr rfl)
  · have hdig : ¬ isdigit c = true := fun h => hid (isIdent_of_isdigit h)
    have hb (s : Tokens) : branch s c = .ok s := by
      simp [branch, hskip, h40, h41, h34, h59, hdig, hid]
    exact advances_char [] hc hopen (hb _) (by simp) (by simp)

/-! ### Whole texts -/

/-- The tokens stand behind those that were there, and each comes from the text. -/
def Emits (text : List UInt8) (v u : Vector Token) : Prop :=
  ∃ out, u.elems = v.elems ++ out ∧ ∀ tok ∈ out, tok.From text

theorem Emits.refl (text : List UInt8) (v : Vector Token) : Emits text v v :=
  ⟨[], by simp, by simp⟩

theorem Emits.trans {u x : Vector Token} {out : List Token} (hu : u.elems = v.elems ++ out)
    (hout : ∀ tok ∈ out, tok.From text) (hr : r <:+ text) (h : Emits r u x) : Emits text v x := by
  obtain ⟨more, hx, hmore⟩ := h
  refine ⟨out ++ more, by rw [hx, hu, List.append_assoc], fun tok htok => ?_⟩
  rcases List.mem_append.mp htok with htok | htok
  · exact hout tok htok
  · exact (hmore tok htok).mono hr.isInfix

/-- The run over a text: it ends inside a closed one, and leaves any other. -/
theorem tokenLoop_text (v : Vector Token) (h0 : 0 ∉ text) :
    if Closed text then ∃ u, tokenLoop (v, text ++ [0]) = .ok u ∧ Emits text v u
    else tokenLoop (v, text ++ [0]) = .error .undefined := by
  induction hn : text.length using Nat.strongRecOn generalizing text v with
  | _ n ih =>
      cases text with
      | nil => exact ⟨v, loop_leave rfl, Emits.refl [] v⟩
      | cons c t =>
          have hc : c ≠ 0 := fun e => h0 (by simp [e])
          rcases tokenLoop_step v hc t with h | ⟨hloop, hopen⟩
          · obtain ⟨u, r, out, hloop, hu, hout, hr, hlen, hclosed⟩ := h
            have := ih r.length (hn ▸ hlen) u (fun h => h0 (hr.subset h)) rfl
            rw [hloop]
            simp only [hclosed]
            split
            · next hcl =>
                rw [if_pos hcl] at this
                obtain ⟨x, hx, hemits⟩ := this
                exact ⟨x, hx, hemits.trans hu hout hr⟩
            · next hcl =>
                rw [if_neg hcl] at this
                exact this
          · rw [if_neg hopen]
            exact hloop

/-- `tokenize` comes to its end with no read behind the NUL, and every token it emits is a
parenthesis or a part of the text. -/
def StaysInside (src : CStr) (tokenOutbuf : Vector Token) : Prop :=
  ∃ tokens, tokenize src tokenOutbuf = .ok tokens ∧ Emits src.chars tokenOutbuf tokens

/-- **The tokenizer stays inside a text exactly where that does not end inside a string or a
comment.** -/
theorem tokenize_closed (src : CStr) (tokenOutbuf : Vector Token) :
    StaysInside src tokenOutbuf ↔ Closed src.chars := by
  have h := tokenLoop_text tokenOutbuf src.nulFree
  constructor
  · rintro ⟨tokens, htok, -⟩
    by_contra hopen
    rw [if_neg hopen] at h
    cases h.symm.trans htok
  · intro hclosed
    rw [if_pos hclosed] at h
    exact h

/-- A comment on a last line that has no newline. -/
theorem tokenize_comment : ¬ StaysInside (.lit [';']) .init := by
  rintro ⟨tokens, htok, -⟩
  have h : tokenize (.lit [';']) .init = .error .undefined := rfl
  cases h.symm.trans htok

end Lisp
end RivOS
