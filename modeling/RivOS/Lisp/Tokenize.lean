import RivOS.Gen.Alpha
import RivOS.Lib.Pointer
import RivOS.Support.Loops

/-!
# Lisp — Vectors and tokens

The first part of the shader language's interpreter (`sbinSrc/de/lisp/lisp.c`): its vector, and
`tokenize`.  A vector is the elements in use, and how many its storage has room for; an element is
stored only where there is room.  A `StringView` is the characters it covers, and an `mmap` gives
the memory it is asked for.

* `tokenize_renders`: the tokens come back from any text they are rendered in, whatever blanks,
  newlines and comments stand between them.
-/

namespace RivOS

namespace Lisp

/-! ### Vectors -/

structure Vector (α : Type) where
  elems : List α
  capac : Nat
  room : elems.length ≤ capac
  capac_pos : 0 < capac

namespace Vector

variable {α : Type} {v : Vector α} {e : α}

def size (v : Vector α) : Nat := v.elems.length

/-- `vectorInit`: room for `VEC_MIN_SIZE` elements. -/
def init : Vector α := ⟨[], 5, Nat.zero_le 5, by decide⟩

/-- Storage of twice the size, where the vector is full. -/
def grow (v : Vector α) : Vector α :=
  if v.size < v.capac then v
  else ⟨v.elems, v.capac * 2, Nat.le_trans v.room (by omega), by have := v.capac_pos; omega⟩

theorem grow_room (v : Vector α) : v.grow.elems.length < v.grow.capac := by
  have := v.capac_pos
  have := v.room
  rw [grow]
  split
  · next h => exact h
  · simp only
    omega

@[simp] theorem grow_elems : v.grow.elems = v.elems := by
  rw [grow]
  split <;> rfl

theorem grow_capac : v.grow.capac = if v.size < v.capac then v.capac else v.capac * 2 := by
  rw [grow]
  split <;> rfl

/-- `vectorPushBack`. -/
def pushBack (v : Vector α) (elem : α) : Vector α :=
  ⟨v.grow.elems ++ [elem], v.grow.capac, by
    have := v.grow_room
    rw [List.length_append, List.length_singleton]
    omega, v.grow.capac_pos⟩

/-- `*vectorAt(vec, ind) = elem`, of an element in use. -/
def set (v : Vector α) (ind : Nat) (elem : α) : Vector α :=
  ⟨v.elems.set ind elem, v.capac, by rw [List.length_set]; exact v.room, v.capac_pos⟩

@[simp] theorem init_elems : (init : Vector α).elems = [] := rfl

@[simp] theorem pushBack_elems : (v.pushBack e).elems = v.elems ++ [e] := by
  simp [pushBack]

@[simp] theorem set_elems {i : Nat} : (v.set i e).elems = v.elems.set i e := rfl

end Vector

/-! ### The tokenizer -/

def isSkippable (c : UInt8) : Bool := c = 32 || c = 10 || c = 9

inductive TokenType where
  | openParen
  | closeParen
  | intLit
  | strLit
  | ident
deriving DecidableEq

structure Token where
  conts : List UInt8
  type : TokenType
deriving DecidableEq

def isIdent (c : UInt8) : Bool :=
  isalpha c || isdigit c || c = 95 || c = 45 || c = 43 || c = 42 || c = 47 || c = 37 || c = 94 ||
    c = 38 || c = 124 || c = 126

/-- The tokens so far, and `src`. -/
abbrev Tokens := Vector Token × Ptr

/-- A run of characters that meet `p`; `src` is left at the last of them. -/
def word (s : Tokens) (p : UInt8 → Bool) (type : TokenType) : Except Halt Tokens := do
  let (conts, _) ← s.2.scan fun c => !p c
  let src ← s.2.add (conts.length - 1)
  .ok (s.1.pushBack ⟨conts, type⟩, src)

/-- A string; `src` is left at the quote behind it. -/
def string (s : Tokens) : Except Halt Tokens := do
  let p ← s.2.add 1
  let (conts, src) ← p.scan (· = 34)
  .ok (s.1.pushBack ⟨conts, .strLit⟩, src)

/-- A comment; `src` is left at the newline. -/
def comment (s : Tokens) : Except Halt Tokens := do
  let (_, src) ← s.2.scan (· = 10)
  .ok (s.1, src)

/-- The body of the loop, by the character at `src`. -/
def branch (s : Tokens) (c : UInt8) : Except Halt Tokens :=
  if isSkippable c then .ok s
  else if c = 40 then .ok (s.1.pushBack ⟨[40], .openParen⟩, s.2)
  else if c = 41 then .ok (s.1.pushBack ⟨[41], .closeParen⟩, s.2)
  else if c = 34 then string s
  else if c = 59 then comment s
  else if isdigit c then word s isdigit .intLit
  else if isIdent c then word s isIdent .ident
  else .ok s

/-- `src++` behind the body. -/
def next (s : Tokens) : Except Halt (Tokens ⊕ Vector Token) := do
  let src ← s.2.add 1
  .ok (.inl (s.1, src))

/-- `for (; *src; src++)`. -/
def tokenTurn (s : Tokens) : Except Halt (Tokens ⊕ Vector Token) := do
  let c ← s.2.read
  if c = 0 then .ok (.inr s.1) else branch s c >>= next

def tokenLoop (s : Tokens) : Except Halt (Vector Token) :=
  loop tokenTurn .undefined (fun s => s.2.length) s

def tokenize (src : CStr) (tokenOutbuf : Vector Token) : Except Halt (Vector Token) :=
  tokenLoop (tokenOutbuf, src.ptr)

variable {s t : Tokens} {v : Vector Token} {c : UInt8} {p r w : List UInt8}

/-! ### Every turn moves on -/

theorem word_length {P : UInt8 → Bool} {type : TokenType} (h : word s P type = .ok t) :
    t.2.length ≤ s.2.length := by
  obtain ⟨⟨conts, q⟩, -, h⟩ := bind_eq_ok.mp h
  obtain ⟨src, hadd, h⟩ := bind_eq_ok.mp h
  cases h
  have := Ptr.add_length hadd
  simp only
  omega

theorem string_length (h : string s = .ok t) : t.2.length ≤ s.2.length := by
  obtain ⟨p, hadd, h⟩ := bind_eq_ok.mp h
  obtain ⟨⟨conts, q⟩, hscan, h⟩ := bind_eq_ok.mp h
  cases h
  have := Ptr.add_length hadd
  have := Ptr.scan_length hscan
  simp only
  omega

theorem comment_length (h : comment s = .ok t) : t.2.length ≤ s.2.length := by
  obtain ⟨⟨w, q⟩, hscan, h⟩ := bind_eq_ok.mp h
  cases h
  have := Ptr.scan_length hscan
  simp only
  omega

theorem branch_length (h : branch s c = .ok t) : t.2.length ≤ s.2.length := by
  have same {v : Vector Token} (h : .ok (v, s.2) = (.ok t : Except Halt Tokens)) :
      t.2.length ≤ s.2.length := by
    cases h
    exact Nat.le_refl _
  rw [branch] at h
  split at h
  · exact same h
  split at h
  · exact same h
  split at h
  · exact same h
  split at h
  · exact string_length h
  split at h
  · exact comment_length h
  split at h
  · exact word_length h
  split at h
  · exact word_length h
  · exact same h

theorem shrinks_tokenTurn : Shrinks tokenTurn fun s => s.2.length := by
  intro s t h
  obtain ⟨c, -, h⟩ := bind_eq_ok.mp h
  split at h
  · cases h
  · obtain ⟨u, hu, h⟩ := bind_eq_ok.mp h
    obtain ⟨src, hadd, h⟩ := bind_eq_ok.mp h
    cases h
    have := branch_length hu
    have := Ptr.add_length hadd
    simp only
    omega

/-! ### Rendered tokens -/

/-- What may stand between tokens. -/
inductive Sep where
  | space
  | tab
  | newline
  | comment (s : CStr)

/-- A comment is one line. -/
def Sep.Valid : Sep → Prop
  | .comment s => 10 ∉ s.chars
  | _ => True

def Sep.text : Sep → List UInt8
  | .space => [32]
  | .tab => [9]
  | .newline => [10]
  | .comment s => 59 :: (s.chars ++ [10])

/-- A token as it is printed. -/
def Token.text (t : Token) : List UInt8 :=
  match t.type with
  | .openParen => [40]
  | .closeParen => [41]
  | .strLit => 34 :: (t.conts ++ [34])
  | .intLit | .ident => t.conts

/-- The tokens there are. -/
def Token.Valid (t : Token) : Prop :=
  match t.type with
  | .openParen => t.conts = [40]
  | .closeParen => t.conts = [41]
  | .strLit => 34 ∉ t.conts
  | .intLit => t.conts ≠ [] ∧ ∀ c ∈ t.conts, isdigit c = true
  | .ident =>
      (∃ c w, t.conts = c :: w ∧ isdigit c = false) ∧ ∀ c ∈ t.conts, isIdent c = true

/-- A text of the tokens: at least one separator behind every token but the last, and any number
of them elsewhere. -/
inductive Renders : List Token → List UInt8 → Prop where
  | nil : Renders [] []
  | sep {ts : List Token} {text : List UInt8} {s : Sep} (hs : s.Valid) (h : Renders ts text) :
      Renders ts (s.text ++ text)
  | token {ts : List Token} {text : List UInt8} {t : Token} (ht : t.Valid) (h : Renders ts text)
      (hgap : text = [] ∨ ∃ s text', text = Sep.text s ++ text') : Renders (t :: ts) (t.text ++ text)

/-- The tokens with a blank behind each. -/
def spaced (ts : List Token) : List UInt8 := ts.flatMap fun t => t.text ++ [32]

theorem renders_spaced {ts : List Token} (h : ∀ t ∈ ts, t.Valid) : Renders ts (spaced ts) := by
  induction ts with
  | nil => exact .nil
  | cons t ts ih =>
      have hrest := ih fun u hu => h u (by simp [hu])
      have hsep : Renders ts (Sep.text .space ++ spaced ts) := .sep trivial hrest
      have e : spaced (t :: ts) = t.text ++ (Sep.text .space ++ spaced ts) := by
        simp [spaced, Sep.text]
      rw [e]
      exact .token (h t (by simp)) hsep (.inr ⟨.space, spaced ts, rfl⟩)

/-- The character behind a word: a separator's first, or the NUL. -/
def Ends (r : List UInt8) : Prop := ∃ c s, r = c :: s ∧ c ∈ [32, 9, 10, 59, 0]

theorem ends_of_gap {text : List UInt8} (h : text = [] ∨ ∃ s text', text = Sep.text s ++ text') :
    Ends (text ++ [0]) := by
  rcases h with rfl | ⟨s, text', rfl⟩
  · exact ⟨0, [], rfl, by decide⟩
  · cases s with
    | space => exact ⟨32, text' ++ [0], rfl, by decide⟩
    | tab => exact ⟨9, text' ++ [0], rfl, by decide⟩
    | newline => exact ⟨10, text' ++ [0], rfl, by decide⟩
    | comment s => exact ⟨59, _, rfl, by decide⟩

/-! ### The tokenizer on rendered tokens -/

theorem branch_quote (s : Tokens) : branch s 34 = string s := by
  rw [branch, if_neg (by decide), if_neg (by decide), if_neg (by decide), if_pos rfl]

theorem branch_semicolon (s : Tokens) : branch s 59 = comment s := by
  rw [branch, if_neg (by decide), if_neg (by decide), if_neg (by decide), if_neg (by decide),
    if_pos rfl]

theorem branch_paren (s : Tokens) :
    branch s 40 = .ok (s.1.pushBack ⟨[40], .openParen⟩, s.2) ∧
      branch s 41 = .ok (s.1.pushBack ⟨[41], .closeParen⟩, s.2) := by
  constructor
  · rw [branch, if_neg (by decide), if_pos rfl]
  · rw [branch, if_neg (by decide), if_neg (by decide), if_pos rfl]

/-- A character of a word starts one. -/
theorem branch_word (s : Tokens) (h : isIdent c = true) :
    c ≠ 0 ∧ branch s c = if isdigit c then word s isdigit .intLit else word s isIdent .ident := by
  have hne (d : UInt8) (hd : isIdent d = false) : c ≠ d := by
    rintro rfl
    rw [h] at hd
    cases hd
  have hskip : isSkippable c = false := by
    simp [isSkippable, hne 32 (by decide), hne 10 (by decide), hne 9 (by decide)]
  refine ⟨hne 0 (by decide), ?_⟩
  simp [branch, hskip, hne 40 (by decide), hne 41 (by decide), hne 34 (by decide),
    hne 59 (by decide), h]

theorem isIdent_of_isdigit (h : isdigit c = true) : isIdent c = true := by
  simp [isIdent, h]

theorem tokenLoop_branch {u : Vector Token} {a : UInt8} (hc : c ≠ 0)
    (hb : branch (v, c :: p) c = .ok (u, a :: r)) : tokenLoop (v, c :: p) = tokenLoop (u, r) := by
  refine loop_turn shrinks_tokenTurn ?_
  simp only [tokenTurn, Ptr.read_cons, ok_bind, hc, if_false, hb, next, Ptr.add_one_cons]

theorem tokenLoop_skippable (hc : isSkippable c = true) :
    tokenLoop (v, c :: p) = tokenLoop (v, p) := by
  have h0 : c ≠ 0 := by
    rintro rfl
    exact absurd hc (by decide)
  have hb : branch (v, c :: p) c = .ok (v, c :: p) := by
    rw [branch, if_pos hc]
  exact tokenLoop_branch h0 hb

/-- A separator is passed over. -/
theorem tokenLoop_sep {s : Sep} (hs : s.Valid) :
    tokenLoop (v, s.text ++ p) = tokenLoop (v, p) := by
  cases s with
  | space => exact tokenLoop_skippable (by decide)
  | tab => exact tokenLoop_skippable (by decide)
  | newline => exact tokenLoop_skippable (by decide)
  | comment s =>
      have e : (Sep.comment s).text ++ p = 59 :: (s.chars ++ 10 :: p) := by
        simp [Sep.text]
      have hscan : Ptr.scan (59 :: (s.chars ++ 10 :: p)) (· = 10) = .ok (59 :: s.chars, 10 :: p) := by
        refine Ptr.scan_char (w := 59 :: s.chars) fun hm => ?_
        rcases List.mem_cons.mp hm with e | hm
        · cases e
        · exact hs hm
      have hb : branch (v, 59 :: (s.chars ++ 10 :: p)) 59 = .ok (v, 10 :: p) := by
        simp only [branch_semicolon, comment, hscan, ok_bind]
      rw [e]
      exact tokenLoop_branch (by decide) hb

/-- A word, up to the character that ends it. -/
theorem word_text {P : UInt8 → Bool} {type : TokenType} (hw : w ≠ []) (hP : ∀ c ∈ w, P c = true)
    (hr : ∃ c s, r = c :: s ∧ P c = false) :
    ∃ a, word (v, w ++ r) P type = .ok (v.pushBack ⟨w, type⟩, a :: r) := by
  obtain ⟨w', a, rfl⟩ : ∃ w' a, w = w' ++ [a] := ⟨_, _, (List.dropLast_append_getLast hw).symm⟩
  have hscan : Ptr.scan (w' ++ [a] ++ r) (fun c => !P c) = .ok (w' ++ [a], r) := by
    refine Ptr.scan_append_head (fun b hb => by rw [hP b hb]; rfl) ?_
    obtain ⟨c, s, e, hc⟩ := hr
    exact ⟨c, s, e, by rw [hc]; rfl⟩
  have hadd : Ptr.add (w' ++ [a] ++ r) ((w' ++ [a]).length - 1) = .ok (a :: r) := by
    simpa using Ptr.add_append w' (a :: r)
  refine ⟨a, ?_⟩
  simp only [word, hscan, ok_bind, hadd]

theorem not_digit_of_ends (h : c ∈ [32, 9, 10, 59, 0]) : isdigit c = false ∧ isIdent c = false := by
  have : ([32, 9, 10, 59, 0] : List UInt8).all fun d => !isdigit d && !isIdent d := by decide
  simpa using List.all_eq_true.mp this c h

theorem tokenLoop_word {P : UInt8 → Bool} {type : TokenType} {w : List UInt8}
    (hb : ∀ s : Tokens, c ≠ 0 ∧ branch s c = word s P type) (hP : ∀ a ∈ c :: w, P a = true)
    (hr : ∃ d s, r = d :: s ∧ P d = false) :
    tokenLoop (v, (c :: w) ++ r) = tokenLoop (v.pushBack ⟨c :: w, type⟩, r) := by
  obtain ⟨a, hword⟩ := word_text (v := v) (List.cons_ne_nil c w) hP hr
  obtain ⟨hc, hbranch⟩ := hb (v, (c :: w) ++ r)
  exact tokenLoop_branch hc (hbranch.trans hword)

/-- One token, where what follows ends a word. -/
theorem tokenLoop_token {tok : Token} (ht : tok.Valid) (hr : Ends r) :
    tokenLoop (v, tok.text ++ r) = tokenLoop (v.pushBack tok, r) := by
  obtain ⟨conts, type⟩ := tok
  obtain ⟨d, s, hd, hend⟩ := hr
  obtain ⟨hdig, hid⟩ := not_digit_of_ends hend
  cases type with
  | openParen =>
      obtain rfl : conts = [40] := ht
      exact tokenLoop_branch (by decide) (branch_paren _).1
  | closeParen =>
      obtain rfl : conts = [41] := ht
      exact tokenLoop_branch (by decide) (branch_paren _).2
  | strLit =>
      have e : Token.text ⟨conts, .strLit⟩ ++ r = 34 :: (conts ++ 34 :: r) := by
        simp [Token.text]
      have hb : branch (v, 34 :: (conts ++ 34 :: r)) 34
          = .ok (v.pushBack ⟨conts, .strLit⟩, 34 :: r) := by
        have hscan : Ptr.scan (conts ++ 34 :: r) (· = 34) = .ok (conts, 34 :: r) := Ptr.scan_char ht
        simp only [branch_quote, string, Ptr.add_one_cons, ok_bind, hscan]
      rw [e]
      exact tokenLoop_branch (by decide) hb
  | intLit =>
      obtain ⟨hne, hall⟩ := ht
      obtain ⟨c, w, rfl⟩ := List.exists_cons_of_ne_nil hne
      have hc := hall c (by simp)
      refine tokenLoop_word (fun s => ?_) hall ⟨d, s, hd, hdig⟩
      simpa [hc] using branch_word s (isIdent_of_isdigit hc)
  | ident =>
      obtain ⟨⟨c, w, rfl, hc⟩, hall⟩ := ht
      refine tokenLoop_word (fun s => ?_) hall ⟨d, s, hd, hid⟩
      simpa [hc] using branch_word s (hall c (by simp))

/-- **Rendered tokens come back.** -/
theorem tokenLoop_renders {ts : List Token} {text : List UInt8} (h : Renders ts text) :
    ∃ u, tokenLoop (v, text ++ [0]) = .ok u ∧ u.elems = v.elems ++ ts := by
  induction h generalizing v with
  | nil => exact ⟨v, loop_leave rfl, by simp⟩
  | sep hs _ ih =>
      rw [List.append_assoc, tokenLoop_sep hs]
      exact ih
  | @token ts text t ht _ hgap ih =>
      rw [List.append_assoc, tokenLoop_token ht (ends_of_gap hgap)]
      obtain ⟨u, hu, e⟩ := ih (v := v.pushBack t)
      exact ⟨u, hu, by simp [e]⟩

theorem tokenize_renders {ts : List Token} {src : CStr} (h : Renders ts src.chars) :
    ∃ tokens, tokenize src .init = .ok tokens ∧ tokens.elems = ts := by
  obtain ⟨u, hu, e⟩ := tokenLoop_renders (v := .init) h
  exact ⟨u, hu, by simpa using e⟩

end Lisp
end RivOS
