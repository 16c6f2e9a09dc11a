import RivOS.Gen.Alpha
import RivOS.Gen.Map
import RivOS.Lib.Pointer
import RivOS.Support.Loops

/-!
# Gen — Configuration files

`Config` (`gen/conf/conf.hpp`): the parser of `key = value` files with sections.  A `StringView`
is the characters it covers; a `Value` with `isErr` set is `none`.

* `parseSrc_document`: a document made of blank lines, comments, section headers and assignments
  leaves the sections and the assignments it lists, in order, and no error.
-/

namespace RivOS

namespace Config

inductive Value where
  | int (intVal : Word)
  | string (strVal : List UInt8)
  | bool (boolVal : Bool)
deriving DecidableEq

end Config

structure Config where
  isErr : Bool
  src : Ptr
  o_err : Option String
  mapping : Map (List UInt8) Config.Value
  currentSection : List UInt8
  allSections : List (List UInt8)

namespace Config

def isIdent (c : UInt8) : Bool := isalpha c || isdigit c || c = 95

def isWhitespace (c : UInt8) : Bool := c = 32 || c = 9 || c = 10

/-- `toCStr()` of a view, as a string: what stands before the first NUL. -/
def cstr (view : List UInt8) : List UInt8 := view.takeWhile (· ≠ 0)

/-- The last branch of `parseVal`: a word that is `true` or `false`. -/
def parseBool (p : Ptr) : Except Halt (Option Value) := do
  let (ident, _) ← p.scan fun c => !isalpha c
  .ok (if strcmp ident (ascii ['t', 'r', 'u', 'e']) = 0 then some (.bool true)
    else if strcmp ident (ascii ['f', 'a', 'l', 's', 'e']) = 0 then some (.bool false)
    else none)

/-- The branch for a value in quotes; `p` is behind the first of them. -/
def parseString (p : Ptr) : Except Halt (Option Value) := do
  let (strVal, _) ← p.scan (· = 34)
  .ok (some (.string strVal))

/-- The value of a view; its copy has a NUL behind it. -/
def parseVal (val : List UInt8) : Except Halt (Option Value) :=
  if strIsDigit (cstr val) then .ok (some (.int (stoi (cstr val))))
  else
    match val ++ [0] with
    | 34 :: p => parseString p
    | p => parseBool p

/-! ### The four kinds of line, at `src` -/

def fail (c : Config) (o_err : String) : Config := { c with isErr := true, o_err := some o_err }

/-- `[section]`: `src` is at the bracket. -/
def header (c : Config) : Except Halt Config := do
  let (w, _) ← c.src.scan (· = 93)
  let len := w.length
  let currentSection := (c.src.drop 1).take (len - 1)
  let src ← c.src.add (len + 1)
  .ok { c with src, currentSection, allSections := c.allSections ++ [currentSection] }

/-- `# comment`. -/
def comment (c : Config) : Except Halt Config := do
  let (_, src) ← c.src.scan (· = 10)
  .ok { c with src }

/-- What follows the `=`; `src` is behind it. -/
def initializer (c : Config) (ident : List UInt8) : Except Halt (Config ⊕ Config) := do
  let (_, p) ← c.src.scan fun c => !isWhitespace c
  let (val, q) ← p.scan (· = 10)
  let init ← parseVal val
  match init with
  | none =>
      .ok (.inr (fail { c with src := p } "Invalid initializer for variable"))
  | some v =>
      let key := cstr c.currentSection ++ 46 :: ident
      .ok (.inl { c with src := q, mapping := c.mapping.insert key v })

/-- `ident = value`; `src` is at the first character of the name. -/
def assignment (c : Config) : Except Halt (Config ⊕ Config) := do
  let (ident, p) ← c.src.scan fun c => !isIdent c
  let (_, p) ← p.scan fun c => !isWhitespace c
  let e ← p.read
  if e = 61 then
    let p ← p.add 1
    initializer { c with src := p } ident
  else
    .ok (.inr (fail { c with src := p } "Equals sign not found: expected format: name=val"))

/-- The body of `while (*src)`, by the character there. -/
def branch (c : Config) (ch : UInt8) : Except Halt (Config ⊕ Config) :=
  if ch = 91 then (header c).map .inl
  else if ch = 35 then (comment c).map .inl
  else if isIdent ch then assignment c
  else if isWhitespace ch then (c.src.add 1).map fun src => .inl { c with src }
  else .ok (.inr (fail c "Invalid character"))

def turn (c : Config) : Except Halt (Config ⊕ Config) := do
  let ch ← c.src.read
  if ch = 0 then .ok (.inr c) else branch c ch

def run (c : Config) : Except Halt Config := loop turn .undefined (fun c => c.src.length) c

def parseSrc (c : Config) : Except Halt Config := run { c with currentSection := [] }

/-- A `Config` with a text to parse. -/
def fresh (src : CStr) : Config := ⟨false, src.ptr, none, ⟨[]⟩, [], []⟩

/-! ### Documents -/

inductive ValText where
  | digits (s : List UInt8)
  | quoted (s : CStr)
  | bool (b : Bool)

inductive Line where
  | blank (ws : List UInt8)
  | comment (s : CStr)
  | header (name : CStr)
  | assign (ident before after : List UInt8) (val : ValText)

/-- Blanks and tabs. -/
def Blanks (ws : List UInt8) : Prop := ∀ c ∈ ws, c = 32 ∨ c = 9

def ValText.Valid : ValText → Prop
  | .digits s => s ≠ [] ∧ (∀ c ∈ s, isdigit c = true) ∧ decVal s < 2 ^ 31
  | .quoted s => 34 ∉ s.chars ∧ 10 ∉ s.chars
  | .bool _ => True

def Line.Valid : Line → Prop
  | .blank ws => Blanks ws
  | .comment s => 10 ∉ s.chars
  | .header name => 93 ∉ name.chars ∧ 10 ∉ name.chars
  | .assign ident before after val =>
      ident ≠ [] ∧ (∀ c ∈ ident, isIdent c = true) ∧ Blanks before ∧ Blanks after ∧ val.Valid

def ValText.text : ValText → List UInt8
  | .digits s => s
  | .quoted s => 34 :: (s.chars ++ [34])
  | .bool true => ascii ['t', 'r', 'u', 'e']
  | .bool false => ascii ['f', 'a', 'l', 's', 'e']

def Line.text : Line → List UInt8
  | .blank ws => ws
  | .comment s => 35 :: s.chars
  | .header name => 91 :: (name.chars ++ [93])
  | .assign ident before after val => ident ++ (before ++ 61 :: (after ++ val.text))

/-- The text of a document, a newline behind every line. -/
def text (doc : List Line) : List UInt8 := doc.flatMap fun l => l.text ++ [10]

def ValText.value : ValText → Value
  | .digits s => .int (BitVec.ofInt 32 (decVal s))
  | .quoted s => .string s.chars
  | .bool b => .bool b

/-- The names of the sections, in order. -/
def sections : List Line → List (List UInt8)
  | [] => []
  | .header name :: doc => name.chars :: sections doc
  | _ :: doc => sections doc

/-- The assignments, in order, each with the section it stands in. -/
def pairs (sect : List UInt8) : List Line → List (List UInt8 × Value)
  | [] => []
  | .header name :: doc => pairs name.chars doc
  | .assign ident _ _ val :: doc =>
      (sect ++ 46 :: ident, val.value) :: pairs sect doc
  | _ :: doc => pairs sect doc

variable {c c' : Config} {ch : UInt8} {p r : Ptr} {ident ws : List UInt8} {val : ValText}

/-! ### Every turn moves on -/

theorem header_length (h : header c = .ok c') : c'.src.length < c.src.length := by
  obtain ⟨⟨w, q⟩, -, h⟩ := bind_eq_ok.mp h
  obtain ⟨src, hadd, h⟩ := bind_eq_ok.mp h
  cases h
  have := Ptr.add_length hadd
  simp only
  omega

theorem comment_length (hsrc : c.src = ch :: p) (hch : ch ≠ 10) (h : comment c = .ok c') :
    c'.src.length < c.src.length := by
  obtain ⟨⟨w, q⟩, hscan, h⟩ := bind_eq_ok.mp h
  cases h
  rw [hsrc] at hscan ⊢
  exact Ptr.scan_length_cons hscan (decide_eq_false hch)

theorem initializer_length (h : initializer c ident = .ok (.inl c')) :
    c'.src.length ≤ c.src.length := by
  obtain ⟨⟨w, q⟩, h₁, h⟩ := bind_eq_ok.mp h
  obtain ⟨⟨v, q'⟩, h₂, h⟩ := bind_eq_ok.mp h
  obtain ⟨init, -, h⟩ := bind_eq_ok.mp h
  have := Ptr.scan_length h₁
  have := Ptr.scan_length h₂
  cases init with
  | none => cases h
  | some v =>
      cases h
      simp only
      omega

theorem assignment_length (hsrc : c.src = ch :: p) (hch : isIdent ch = true)
    (h : assignment c = .ok (.inl c')) : c'.src.length < c.src.length := by
  obtain ⟨⟨w, q⟩, h₁, h⟩ := bind_eq_ok.mp h
  obtain ⟨⟨v, q'⟩, h₂, h⟩ := bind_eq_ok.mp h
  obtain ⟨e, -, h⟩ := bind_eq_ok.mp h
  rw [hsrc] at h₁ ⊢
  have := Ptr.scan_length_cons h₁ (by rw [hch]; rfl)
  have := Ptr.scan_length h₂
  split at h
  · obtain ⟨q'', h₃, h⟩ := bind_eq_ok.mp h
    have := Ptr.add_length h₃
    have : c'.src.length ≤ q''.length := initializer_length h
    omega
  · cases h

theorem shrinks_turn : Shrinks turn fun c => c.src.length := by
  intro c c' h
  obtain ⟨ch, hch, h⟩ := bind_eq_ok.mp h
  obtain ⟨p, hsrc⟩ := Ptr.read_eq_ok.mp hch
  split at h
  · cases h
  · rw [branch] at h
    split at h
    · obtain ⟨c'', hs, e⟩ := map_eq_ok.mp h
      cases e
      exact header_length hs
    split at h
    · next h35 =>
        obtain ⟨c'', hs, e⟩ := map_eq_ok.mp h
        cases e
        exact comment_length hsrc (by rw [h35]; decide) hs
    split at h
    · next hid => exact assignment_length hsrc hid h
    split at h
    · obtain ⟨src, hs, e⟩ := map_eq_ok.mp h
      cases e
      have := Ptr.add_length hs
      simp only
      omega
    · cases h

/-! ### Values -/

theorem not_mem_of_all {P : UInt8 → Bool} {s : List UInt8} (hs : ∀ c ∈ s, P c = true)
    (hc : P ch = false) : ch ∉ s := fun h => by
  rw [hs ch h] at hc
  cases hc

/-- Neither a letter nor a digit is a blank. -/
theorem isWhitespace_of_isIdent (h : isIdent ch = true) : isWhitespace ch = false := by
  rw [Bool.eq_false_iff]
  intro hw
  have hcases : ch = 32 ∨ ch = 9 ∨ ch = 10 := by
    simpa [isWhitespace, or_assoc] using hw
  rcases hcases with rfl | rfl | rfl <;> exact absurd h (by decide)

theorem isIdent_of_isdigit (h : isdigit ch = true) : isIdent ch = true := by
  simp [isIdent, h]

theorem cstr_eq {s : List UInt8} (h : 0 ∉ s) : cstr s = s := by
  refine List.takeWhile_eq_self_iff.mpr fun c hc => ?_
  exact decide_eq_true fun e => h (e ▸ hc)

theorem strIsDigit_cons (c : UInt8) (s : List UInt8) :
    strIsDigit (c :: s) = true ↔ ∀ a ∈ c :: s, isdigit a = true := by
  rw [strIsDigit, List.all_eq_true]
  simp

/-- The text of a value starts with no blank, and holds neither a newline nor a NUL. -/
theorem ValText.Valid.text_ok (h : val.Valid) :
    (∃ c s, val.text = c :: s ∧ isWhitespace c = false) ∧ 10 ∉ val.text ∧ 0 ∉ val.text := by
  cases val with
  | digits s =>
      obtain ⟨hne, hdig, -⟩ := h
      obtain ⟨c, s', rfl⟩ := List.exists_cons_of_ne_nil hne
      have hc := hdig c (by simp)
      refine ⟨⟨c, s', rfl, ?_⟩, not_mem_of_all hdig (by decide), not_mem_of_all hdig (by decide)⟩
      exact isWhitespace_of_isIdent (isIdent_of_isdigit hc)
  | quoted s =>
      have h0 := s.nulFree
      refine ⟨⟨34, _, rfl, by decide⟩, ?_, ?_⟩
      · simpa [ValText.text] using h.2
      · simpa [ValText.text] using h0
  | bool b => cases b <;> exact ⟨⟨_, _, rfl, by decide⟩, by decide, by decide⟩

/-- **A value read back from its text.** -/
theorem parseVal_text (h : val.Valid) : parseVal val.text = .ok (some val.value) := by
  have hcstr := cstr_eq h.text_ok.2.2
  rw [parseVal, hcstr]
  cases val with
  | digits s =>
      obtain ⟨hne, hdig, -⟩ := h
      obtain ⟨c, s', rfl⟩ := List.exists_cons_of_ne_nil hne
      have hs : strIsDigit (ValText.digits (c :: s')).text = true := (strIsDigit_cons c s').mpr hdig
      rw [if_pos hs, ValText.text, stoi_digits hdig, ValText.value, BitVec.ofInt_natCast]
  | quoted s =>
      have hs : strIsDigit (ValText.quoted s).text = false := rfl
      have hscan : Ptr.scan (s.chars ++ 34 :: [0]) (· = 34) = .ok (s.chars, [34, 0]) :=
        Ptr.scan_char h.1
      rw [if_neg (by rw [hs]; decide)]
      simp only [ValText.text, List.cons_append, List.append_assoc, List.nil_append, parseString,
        hscan, ok_bind, ValText.value]
  | bool b => cases b <;> decide

/-! ### What the parser makes of a line -/

theorem run_turn (h : turn c = .ok (.inl c')) : run c = run c' := loop_turn shrinks_turn h

/-- The characters that stop neither a name nor a run of blanks. -/
theorem Blanks.head {P : UInt8 → Prop} (hb : Blanks ws) (h₁ : P 32) (h₂ : P 9) (h₃ : P ch) :
    ∃ c s, ws ++ ch :: r = c :: s ∧ P c := by
  cases ws with
  | nil => exact ⟨ch, r, rfl, h₃⟩
  | cons c ws =>
      refine ⟨c, ws ++ ch :: r, rfl, ?_⟩
      rcases hb c (by simp) with rfl | rfl
      · exact h₁
      · exact h₂

theorem Blanks.isWhitespace (hb : Blanks ws) : ∀ c ∈ ws, (!isWhitespace c) = false := by
  intro c hc
  rcases hb c hc with rfl | rfl <;> rfl

/-- Blanks, tabs and newlines between the lines are passed over. -/
theorem run_whitespace (c : Config) (h : isWhitespace ch = true) :
    run { c with src := ch :: r } = run { c with src := r } := by
  have hcases : ch = 32 ∨ ch = 9 ∨ ch = 10 := by
    simpa [Config.isWhitespace, or_assoc] using h
  refine run_turn ?_
  rcases hcases with rfl | rfl | rfl <;> rfl

theorem run_blanks (c : Config) (hb : Blanks ws) :
    run { c with src := ws ++ 10 :: r } = run { c with src := r } := by
  induction ws with
  | nil => exact run_whitespace c (by decide)
  | cons w ws ih =>
      have hw : Config.isWhitespace w = true := by simpa using hb.isWhitespace w (by simp)
      exact (run_whitespace c hw).trans (ih fun a ha => hb a (by simp [ha]))

/-- The first character of a name. -/
theorem turn_ident (c : Config) (hch : isIdent ch = true) :
    turn { c with src := ch :: p } = assignment { c with src := ch :: p } := by
  have h0 : ch ≠ 0 := fun e => absurd (e ▸ hch) (by decide)
  have h91 : ch ≠ 91 := fun e => absurd (e ▸ hch) (by decide)
  have h35 : ch ≠ 35 := fun e => absurd (e ▸ hch) (by decide)
  simp only [turn, branch, Ptr.read_cons, ok_bind, h0, h91, h35, hch, if_false, if_true]

/-- A comment, and the newline behind it. -/
theorem run_comment (c : Config) {s : List UInt8} (h : 10 ∉ s) :
    run { c with src := 35 :: (s ++ 10 :: r) } = run { c with src := r } := by
  have hscan : Ptr.scan (35 :: (s ++ 10 :: r)) (· = 10) = .ok (35 :: s, 10 :: r) := by
    refine Ptr.scan_char (w := 35 :: s) fun hm => ?_
    rcases List.mem_cons.mp hm with e | hm
    · cases e
    · exact h hm
  have hturn : turn { c with src := 35 :: (s ++ 10 :: r) } = .ok (.inl { c with src := 10 :: r }) := by
    simp only [turn, branch, Ptr.read_cons, ok_bind, comment, hscan]
    rfl
  exact (run_turn hturn).trans (run_whitespace c (by decide))

theorem header_text (c : Config) {name : List UInt8} (h : 93 ∉ name) :
    header { c with src := 91 :: (name ++ 93 :: r) }
      = .ok { c with src := r, currentSection := name, allSections := c.allSections ++ [name] } := by
  have hscan : Ptr.scan (91 :: (name ++ 93 :: r)) (· = 93) = .ok (91 :: name, 93 :: r) := by
    refine Ptr.scan_char (w := 91 :: name) fun hm => ?_
    rcases List.mem_cons.mp hm with e | hm
    · cases e
    · exact h hm
  have hadd : Ptr.add (91 :: (name ++ 93 :: r)) (name.length + 1 + 1) = .ok r :=
    Ptr.add_add (Ptr.add_append (91 :: name) (93 :: r)) (Ptr.add_one_cons _ _)
  simp [header, hscan, ok_bind, hadd]

theorem run_header (c : Config) {name : List UInt8} (h : 93 ∉ name) :
    run { c with src := 91 :: (name ++ 93 :: r) }
      = run { c with src := r, currentSection := name, allSections := c.allSections ++ [name] } := by
  refine run_turn ?_
  simp only [turn, branch, Ptr.read_cons, ok_bind, if_true, header_text c h]
  rfl

theorem initializer_text (c : Config) (hb : Blanks ws) (hv : val.Valid)
    (hs : 0 ∉ c.currentSection) :
    initializer { c with src := ws ++ (val.text ++ 10 :: r) } ident
      = .ok (.inl
          { c with src := 10 :: r,
                   mapping := c.mapping.insert (c.currentSection ++ 46 :: ident) val.value }) := by
  obtain ⟨⟨ch, s, e, hch⟩, hnl, -⟩ := hv.text_ok
  have hscan : Ptr.scan (ws ++ (val.text ++ 10 :: r)) (fun c => !Config.isWhitespace c)
      = .ok (ws, val.text ++ 10 :: r) := by
    refine Ptr.scan_append_head hb.isWhitespace ⟨ch, s ++ 10 :: r, ?_, ?_⟩
    · rw [e]
      rfl
    · rw [hch]
      rfl
  simp only [initializer, hscan, ok_bind, Ptr.scan_char hnl, parseVal_text hv, cstr_eq hs]

theorem assignment_text (c : Config) {before after : List UInt8}
    (hid : ∀ c ∈ ident, isIdent c = true) (hb : Blanks before) (ha : Blanks after)
    (hv : val.Valid) (hs : 0 ∉ c.currentSection) :
    assignment { c with src := ident ++ (before ++ 61 :: (after ++ (val.text ++ 10 :: r))) }
      = .ok (.inl
          { c with src := 10 :: r,
                   mapping := c.mapping.insert (c.currentSection ++ 46 :: ident) val.value }) := by
  have hname : Ptr.scan (ident ++ (before ++ 61 :: (after ++ (val.text ++ 10 :: r))))
      (fun c => !isIdent c) = .ok (ident, before ++ 61 :: (after ++ (val.text ++ 10 :: r))) := by
    refine Ptr.scan_append_head (fun a h => by rw [hid a h]; rfl) ?_
    exact hb.head (by decide) (by decide) (by decide)
  have hblank : Ptr.scan (before ++ 61 :: (after ++ (val.text ++ 10 :: r)))
      (fun c => !Config.isWhitespace c) = .ok (before, 61 :: (after ++ (val.text ++ 10 :: r))) :=
    Ptr.scan_append hb.isWhitespace (by decide)
  simp only [assignment, hname, hblank, ok_bind, Ptr.read_cons, if_true, Ptr.add_one_cons]
  exact initializer_text c ha hv hs

/-- What a line does to the configuration. -/
def after (c : Config) : Line → Config
  | .header name => { c with currentSection := name.chars,
                             allSections := c.allSections ++ [name.chars] }
  | .assign ident _ _ val =>
      { c with mapping := c.mapping.insert (c.currentSection ++ 46 :: ident) val.value }
  | _ => c

/-- One line, from its first character to the newline behind it. -/
theorem run_line (c : Config) {l : Line} (h : l.Valid) (hs : 0 ∉ c.currentSection) :
    run { c with src := l.text ++ 10 :: r } = run { after c l with src := r } := by
  have hnl (c : Config) : run { c with src := 10 :: r } = run { c with src := r } :=
    run_whitespace c (by decide)
  cases l with
  | blank ws => exact run_blanks c h
  | comment s => exact run_comment c h
  | header name =>
      have e : (Line.header name).text ++ 10 :: r = 91 :: (name.chars ++ 93 :: 10 :: r) := by
        simp [Line.text]
      rw [e, run_header c h.1]
      exact hnl (Config.after c (.header name))
  | assign ident before after val =>
      obtain ⟨hne, hid, hb, ha, hv⟩ := h
      obtain ⟨ch, w, rfl⟩ := List.exists_cons_of_ne_nil hne
      have hch := hid ch (by simp)
      have e : (Line.assign (ch :: w) before after val).text ++ 10 :: r
          = (ch :: w) ++ (before ++ 61 :: (after ++ (val.text ++ 10 :: r))) := by
        simp [Line.text]
      have hturn := assignment_text c (r := r) hid hb ha hv hs
      rw [e]
      refine (run_turn ?_).trans (hnl _)
      exact (turn_ident c hch).trans hturn

/-! ### Documents -/

theorem after_nulFree {l : Line} (hs : 0 ∉ c.currentSection) : 0 ∉ (after c l).currentSection := by
  cases l with
  | header name => exact name.nulFree
  | _ => exact hs

theorem run_text (c : Config) {doc : List Line} (h : ∀ l ∈ doc, l.Valid)
    (hs : 0 ∉ c.currentSection) :
    run { c with src := text doc ++ r } = run { doc.foldl after c with src := r } := by
  induction doc generalizing c with
  | nil => rfl
  | cons l doc ih =>
      have e : text (l :: doc) ++ r = l.text ++ 10 :: (text doc ++ r) := by
        simp [text]
      rw [e, run_line c (h l (by simp)) hs]
      exact ih (after c l) (fun k hk => h k (by simp [hk])) (after_nulFree hs)

/-- What the lines of a document add up to. -/
theorem foldl_after (c : Config) (doc : List Line) :
    (doc.foldl after c).isErr = c.isErr ∧
      (doc.foldl after c).allSections = c.allSections ++ sections doc ∧
      (doc.foldl after c).mapping.entries = c.mapping.entries ++ pairs c.currentSection doc := by
  induction doc generalizing c with
  | nil => simp [sections, pairs]
  | cons l doc ih =>
      obtain ⟨h₁, h₂, h₃⟩ := ih (after c l)
      rw [List.foldl_cons, h₁, h₂, h₃]
      cases l <;> simp [after, sections, pairs, Map.insert]

theorem Blanks.nulFree (hb : Blanks ws) : 0 ∉ ws := fun h => by
  rcases hb 0 h with e | e <;> cases e

theorem Line.Valid.nulFree {l : Line} (h : l.Valid) : 0 ∉ l.text := by
  cases l with
  | blank ws => exact Blanks.nulFree h
  | comment s => simpa [Line.text] using s.nulFree
  | header name => simpa [Line.text] using name.nulFree
  | assign ident before after val =>
      obtain ⟨-, hid, hb, ha, hv⟩ := h
      have hident : 0 ∉ ident := not_mem_of_all hid (by decide)
      simp [Line.text, hident, hb.nulFree, ha.nulFree, hv.text_ok.2.2]

theorem text_nulFree {doc : List Line} (h : ∀ l ∈ doc, l.Valid) : 0 ∉ text doc := by
  intro h0
  obtain ⟨l, hl, h0⟩ := List.mem_flatMap.mp h0
  rcases List.mem_append.mp h0 with h0 | h0
  · exact (h l hl).nulFree h0
  · exact absurd h0 (by decide)

/-- **A document parses to what it says.** -/
theorem parseSrc_document {doc : List Line} (h : ∀ l ∈ doc, l.Valid) :
    ∃ c, parseSrc (fresh ⟨text doc, text_nulFree h⟩) = .ok c ∧ c.isErr = false ∧
      c.allSections = sections doc ∧ c.mapping.entries = pairs [] doc := by
  let c := fresh ⟨text doc, text_nulFree h⟩
  obtain ⟨herr, hsec, hmap⟩ := foldl_after c doc
  refine ⟨{ doc.foldl after c with src := [0] }, ?_, herr, hsec, hmap⟩
  have hrun := run_text (r := [0]) c h List.not_mem_nil
  exact hrun.trans (loop_leave rfl)

/-- `[a]` and `k = "v"` below it. -/
def someDocument : List Line :=
  [.header (.lit ['a']), .assign (ascii ['k']) [32] [32] (.quoted (.lit ['v']))]

theorem someDocument_valid : ∀ l ∈ someDocument, l.Valid := by
  intro l hl
  rcases List.mem_cons.mp hl with rfl | hl
  · exact ⟨by decide, by decide⟩
  · rw [List.mem_singleton.mp hl]
    exact ⟨by decide, List.all_eq_true.mp rfl, by simp [Blanks], by simp [Blanks], by decide,
      by decide⟩

theorem parseSrc_someDocument :
    ∃ c, parseSrc (fresh ⟨text someDocument, text_nulFree someDocument_valid⟩) = .ok c ∧
      c.isErr = false ∧ c.allSections = [ascii ['a']] ∧
      c.mapping.entries = [(ascii ['a', '.', 'k'], .string (ascii ['v']))] :=
  parseSrc_document someDocument_valid

end Config
end RivOS
