import RivOS.Gen.Conf

/-!
# Gen — Configuration texts without their ends

Three scans of the parser (`gen/conf/conf.hpp`) ask for their own delimiter only: the one for the
bracket that closes a header, the ones for the newline behind a comment and behind a value, and in
`parseVal` the one for the closing quote of a value.  None of them stops at the NUL.

`Closed text` says that the delimiters are there, as far as the parser gets.

* `parseSrc_closed`: the parser stays inside the text exactly on closed texts; it then has set
  `isErr`, or stands at the NUL.
-/

namespace RivOS

namespace Config

variable {c : UInt8} {s t u val : List UInt8}

/-! ### Values -/

/-- `true` and `false`. -/
def bools : List (List UInt8) :=
  [ascii ['t', 'r', 'u', 'e'], ascii ['f', 'a', 'l', 's', 'e']]

/-- A number, a string with its closing quote, or a word for a boolean. -/
def HasValue (val : List UInt8) : Prop :=
  strIsDigit val = true ∨ (∃ p, val = 34 :: p ∧ 34 ∈ p) ∨ val.takeWhile isalpha ∈ bools

/-- Neither a number, nor the start of a string, nor a word for a boolean. -/
def NoValue (val : List UInt8) : Prop :=
  strIsDigit val = false ∧ val.head? ≠ some 34 ∧ val.takeWhile isalpha ∉ bools

theorem parseBool_eq (h0 : 0 ∉ val) :
    parseBool (val ++ [0]) = .ok (if val.takeWhile isalpha = ascii ['t', 'r', 'u', 'e']
      then some (.bool true)
      else if val.takeWhile isalpha = ascii ['f', 'a', 'l', 's', 'e'] then some (.bool false)
      else none) := by
  have hw : 0 ∉ val.takeWhile isalpha := fun h => h0 ((List.takeWhile_prefix _).subset h)
  simp only [parseBool, Ptr.scan_while (P := isalpha) (by decide), ok_bind,
    strcmp_eq_zero_iff hw (show 0 ∉ ascii ['t', 'r', 'u', 'e'] by decide),
    strcmp_eq_zero_iff hw (show 0 ∉ ascii ['f', 'a', 'l', 's', 'e'] by decide)]

theorem parseVal_word (h0 : 0 ∉ val) (hdig : strIsDigit val = false) (hq : val.head? ≠ some 34) :
    parseVal val = parseBool (val ++ [0]) := by
  rw [parseVal, cstr_eq h0, if_neg (by rw [hdig]; decide)]
  split
  · next p e =>
      cases val with
      | nil => cases e
      | cons a w =>
          cases e
          exact absurd rfl hq
  · rfl

theorem parseVal_of_noValue (h0 : 0 ∉ val) (h : NoValue val) : parseVal val = .ok none := by
  obtain ⟨hdig, hq, hw⟩ := h
  obtain ⟨ht, hf⟩ : val.takeWhile isalpha ≠ ascii ['t', 'r', 'u', 'e'] ∧
      val.takeWhile isalpha ≠ ascii ['f', 'a', 'l', 's', 'e'] := by simpa [bools] using hw
  rw [parseVal_word h0 hdig hq, parseBool_eq h0, if_neg ht, if_neg hf]

theorem parseVal_quote (p : List UInt8) : parseVal (34 :: p) = parseString (p ++ [0]) := by
  rw [parseVal, if_neg]
  · rfl
  · simp [cstr, strIsDigit, isdigit]

theorem parseVal_of_hasValue (h0 : 0 ∉ val) (h : HasValue val) : ∃ v, parseVal val = .ok (some v) := by
  by_cases hdig : strIsDigit val = true
  · exact ⟨_, by rw [parseVal, cstr_eq h0, if_pos hdig]⟩
  rcases h with h | ⟨p, rfl, hp⟩ | hw
  · exact absurd h hdig
  · obtain ⟨s, r, rfl, hs⟩ := List.eq_append_cons_of_mem hp
    have hscan : Ptr.scan (s ++ 34 :: (r ++ [0])) (· = 34) = .ok (s, 34 :: (r ++ [0])) :=
      Ptr.scan_char hs
    refine ⟨.string s, ?_⟩
    rw [parseVal_quote, parseString, List.append_assoc, List.cons_append, hscan]
    rfl
  · have hq : val.head? ≠ some 34 := by
      intro e
      obtain ⟨p, rfl⟩ := List.head?_eq_some_iff.mp e
      rw [List.takeWhile_cons_of_neg (by decide)] at hw
      exact absurd hw (by decide)
    rw [parseVal_word h0 (by simpa using hdig) hq, parseBool_eq h0]
    by_cases ht : val.takeWhile isalpha = ascii ['t', 'r', 'u', 'e']
    · exact ⟨_, by rw [if_pos ht]⟩
    · have hf : val.takeWhile isalpha = ascii ['f', 'a', 'l', 's', 'e'] := by
        simpa [bools, ht] using hw
      exact ⟨_, by rw [if_neg ht, if_pos hf]⟩

/-- A string that nothing closes. -/
theorem parseVal_open {p : List UInt8} (h : 34 ∉ p) : parseVal (34 :: p) = .error .undefined := by
  have hscan : Ptr.scan (p ++ [0]) (· = 34) = .error .undefined :=
    Ptr.scan_absent (by simpa using h)
  rw [parseVal_quote, parseString, hscan]
  rfl

theorem value_cases (val : List UInt8) :
    HasValue val ∨ NoValue val ∨ ∃ p, val = 34 :: p ∧ 34 ∉ p := by
  by_cases hdig : strIsDigit val = true
  · exact .inl (.inl hdig)
  by_cases hq : val.head? = some 34
  · obtain ⟨p, rfl⟩ := List.head?_eq_some_iff.mp hq
    by_cases hp : 34 ∈ p
    · exact .inl (.inr (.inl ⟨p, rfl, hp⟩))
    · exact .inr (.inr ⟨p, rfl, hp⟩)
  by_cases hw : val.takeWhile isalpha ∈ bools
  · exact .inl (.inr (.inr hw))
  · exact .inr (.inl ⟨by simpa using hdig, hq, hw⟩)

/-! ### Texts -/

/-- Behind a name and the blanks after it. -/
def afterName (text : List UInt8) : List UInt8 := (text.dropWhile isIdent).dropWhile isWhitespace

/-- The delimiters are there, up to the end of the text or to an error the parser reports. -/
inductive Closed : List UInt8 → Prop where
  | done : Closed []
  | blank {c : UInt8} {t : List UInt8} (hc : isWhitespace c = true) (h : Closed t) : Closed (c :: t)
  | comment {s t : List UInt8} (hs : 10 ∉ s) (h : Closed t) : Closed (35 :: (s ++ 10 :: t))
  | header {s t : List UInt8} (hs : 93 ∉ s) (h : Closed t) : Closed (91 :: (s ++ 93 :: t))
  | assign {c : UInt8} {s t u val : List UInt8} (hc : isIdent c = true)
      (heq : afterName (c :: t) = 61 :: s) (hline : s.dropWhile isWhitespace = val ++ 10 :: u)
      (hnl : 10 ∉ val) (hval : HasValue val) (h : Closed u) : Closed (c :: t)
  | badInit {c : UInt8} {s t u val : List UInt8} (hc : isIdent c = true)
      (heq : afterName (c :: t) = 61 :: s) (hline : s.dropWhile isWhitespace = val ++ 10 :: u)
      (hnl : 10 ∉ val) (hval : NoValue val) : Closed (c :: t)
  | noEquals {c : UInt8} {t : List UInt8} (hc : isIdent c = true)
      (heq : (afterName (c :: t)).head? ≠ some 61) : Closed (c :: t)
  | invalid {c : UInt8} {t : List UInt8}
      (hc : c ≠ 91 ∧ c ≠ 35 ∧ isIdent c = false ∧ isWhitespace c = false) : Closed (c :: t)

variable (conf : Config)

theorem assignment_noEquals (heq : (afterName t).head? ≠ some 61) :
    assignment { conf with src := t ++ [0] }
      = .ok (.inr (fail { conf with src := afterName t ++ [0] }
          "Equals sign not found: expected format: name=val")) := by
  obtain ⟨d, r, e, hd⟩ : ∃ d r, afterName t ++ [0] = d :: r ∧ d ≠ 61 := by
    cases h : afterName t with
    | nil => exact ⟨0, [], rfl, by decide⟩
    | cons d r =>
        refine ⟨d, r ++ [0], rfl, ?_⟩
        simpa [h] using heq
  have h := Ptr.scan_while (P := isWhitespace) (by decide) (t.dropWhile isIdent)
  simp only [assignment, Ptr.scan_while (P := isIdent) (by decide), ok_bind, h]
  rw [← afterName, e, Ptr.read_cons, ok_bind, if_neg hd]

theorem assignment_equals (heq : afterName t = 61 :: s) :
    assignment { conf with src := t ++ [0] }
      = initializer { conf with src := s ++ [0] } (t.takeWhile isIdent) := by
  have h := Ptr.scan_while (P := isWhitespace) (by decide) (t.dropWhile isIdent)
  simp only [assignment, Ptr.scan_while (P := isIdent) (by decide), ok_bind, h]
  rw [← afterName, heq]
  rfl

/-- A last line without a newline. -/
theorem initializer_absent {ident : List UInt8} (h : 10 ∉ s.dropWhile isWhitespace) :
    initializer { conf with src := s ++ [0] } ident = .error .undefined := by
  have hscan : Ptr.scan (s.dropWhile isWhitespace ++ [0]) (· = 10) = .error .undefined :=
    Ptr.scan_absent (by simpa using h)
  simp only [initializer, Ptr.scan_while (P := isWhitespace) (by decide), ok_bind, hscan]
  rfl

theorem initializer_line {ident : List UInt8} {v : Value}
    (hline : s.dropWhile isWhitespace = val ++ 10 :: u) (hnl : 10 ∉ val)
    (hv : parseVal val = .ok (some v)) :
    initializer { conf with src := s ++ [0] } ident
      = .ok (.inl { conf with
          src := 10 :: (u ++ [0]),
          mapping := conf.mapping.insert (cstr conf.currentSection ++ 46 :: ident) v }) := by
  simp only [initializer, Ptr.scan_while (P := isWhitespace) (by decide), ok_bind, hline,
    List.append_assoc, List.cons_append, Ptr.scan_char hnl, hv]

theorem initializer_badInit {ident : List UInt8}
    (hline : s.dropWhile isWhitespace = val ++ 10 :: u) (hnl : 10 ∉ val)
    (hv : parseVal val = .ok none) :
    initializer { conf with src := s ++ [0] } ident
      = .ok (.inr (fail { conf with src := val ++ 10 :: (u ++ [0]) }
          "Invalid initializer for variable")) := by
  simp only [initializer, Ptr.scan_while (P := isWhitespace) (by decide), ok_bind, hline,
    List.append_assoc, List.cons_append, Ptr.scan_char hnl, hv]

theorem initializer_open {ident : List UInt8} {e : Halt}
    (hline : s.dropWhile isWhitespace = val ++ 10 :: u) (hnl : 10 ∉ val)
    (hv : parseVal val = .error e) :
    initializer { conf with src := s ++ [0] } ident = .error e := by
  simp only [initializer, Ptr.scan_while (P := isWhitespace) (by decide), ok_bind, hline,
    List.append_assoc, List.cons_append, Ptr.scan_char hnl, hv]
  rfl

theorem run_leave {conf' : Config} (h : turn conf = .ok (.inr conf')) : run conf = .ok conf' :=
  loop_leave h

theorem run_error {e : Halt} (h : turn conf = .error e) : run conf = .error e := by
  rw [run, loop_eq shrinks_turn, h]
  rfl

theorem turn_invalid (hc : c ≠ 91 ∧ c ≠ 35 ∧ isIdent c = false ∧ isWhitespace c = false)
    (h0 : c ≠ 0) (p : Ptr) :
    turn { conf with src := c :: p }
      = .ok (.inr (fail { conf with src := c :: p } "Invalid character")) := by
  obtain ⟨h91, h35, hid, hw⟩ := hc
  simp only [turn, branch, Ptr.read_cons, ok_bind, h0, h91, h35, hid, hw, if_false]
  rfl

theorem turn_comment_absent (h : 10 ∉ t) :
    turn { conf with src := 35 :: (t ++ [0]) } = .error .undefined := by
  have hscan : Ptr.scan (35 :: (t ++ [0])) (· = 10) = .error .undefined :=
    Ptr.scan_absent (by simpa using h)
  simp only [turn, branch, Ptr.read_cons, ok_bind, comment, hscan]
  rfl

theorem turn_header_absent (h : 93 ∉ t) :
    turn { conf with src := 91 :: (t ++ [0]) } = .error .undefined := by
  have hscan : Ptr.scan (91 :: (t ++ [0])) (· = 93) = .error .undefined :=
    Ptr.scan_absent (by simpa using h)
  simp only [turn, branch, Ptr.read_cons, ok_bind, header, hscan]
  rfl

/-! ### The parser on closed texts -/

/-- An error is set, or the whole text is consumed. -/
def Ended (conf : Config) : Prop := conf.isErr = true ∨ conf.src = [0]

/-- What follows the `=` is a part of the text. -/
theorem afterName_suffix (heq : afterName t = 61 :: s) : s.dropWhile isWhitespace <:+ t := by
  have h : 61 :: s <:+ t := by
    rw [← heq]
    exact (List.dropWhile_suffix _).trans (List.dropWhile_suffix _)
  exact (List.dropWhile_suffix _).trans ((List.suffix_cons 61 s).trans h)

theorem value_nulFree (h0 : 0 ∉ t) (heq : afterName t = 61 :: s)
    (hline : s.dropWhile isWhitespace = val ++ 10 :: u) : 0 ∉ val ∧ 0 ∉ u := by
  have hsub := (afterName_suffix heq).subset
  rw [hline] at hsub
  exact ⟨fun h => h0 (hsub (by simp [h])), fun h => h0 (hsub (by simp [h]))⟩

/-- The line of an assignment with a value. -/
theorem run_assign (h0 : 0 ∉ c :: t) (hc : isIdent c = true) (heq : afterName (c :: t) = 61 :: s)
    (hline : s.dropWhile isWhitespace = val ++ 10 :: u) (hnl : 10 ∉ val) (hval : HasValue val) :
    ∃ conf' : Config, run { conf with src := c :: t ++ [0] } = run { conf' with src := u ++ [0] } := by
  obtain ⟨v, hv⟩ := parseVal_of_hasValue (value_nulFree h0 heq hline).1 hval
  have hturn := (turn_ident conf hc).trans
    ((assignment_equals conf heq).trans (initializer_line conf hline hnl hv))
  let key := cstr conf.currentSection ++ 46 :: (c :: t).takeWhile isIdent
  let conf' : Config := { conf with mapping := conf.mapping.insert key v }
  refine ⟨conf', (run_turn hturn).trans ?_⟩
  exact run_whitespace conf' (by decide)

theorem run_of_closed (h : Closed t) (h0 : 0 ∉ t) (conf : Config) :
    ∃ conf', run { conf with src := t ++ [0] } = .ok conf' ∧ Ended conf' := by
  induction h generalizing conf with
  | done => exact ⟨_, run_leave _ rfl, .inr rfl⟩
  | blank hc _ ih =>
      rw [List.cons_append, run_whitespace conf hc]
      exact ih (fun h => h0 (by simp [h])) conf
  | comment hs _ ih =>
      rw [List.cons_append, List.append_assoc, List.cons_append, run_comment conf hs]
      exact ih (fun h => h0 (by simp [h])) conf
  | @header s t hs _ ih =>
      rw [List.cons_append, List.append_assoc, List.cons_append, run_header conf hs]
      exact ih (fun h => h0 (by simp [h]))
        { conf with currentSection := s, allSections := conf.allSections ++ [s] }
  | assign hc heq hline hnl hval _ ih =>
      obtain ⟨conf', hrun⟩ := run_assign conf h0 hc heq hline hnl hval
      rw [hrun]
      exact ih (value_nulFree h0 heq hline).2 conf'
  | badInit hc heq hline hnl hval =>
      have hturn := (turn_ident conf hc).trans
        ((assignment_equals conf heq).trans (initializer_badInit conf hline hnl
          (parseVal_of_noValue (value_nulFree h0 heq hline).1 hval)))
      exact ⟨_, run_leave _ hturn, .inl rfl⟩
  | noEquals hc heq =>
      have hturn := (turn_ident conf hc).trans (assignment_noEquals conf heq)
      exact ⟨_, run_leave _ hturn, .inl rfl⟩
  | @invalid c t hc =>
      have hne : c ≠ 0 := fun e => h0 (by simp [e])
      exact ⟨_, run_leave _ (turn_invalid conf hc hne _), .inl rfl⟩

/-- One assignment of a text that the parser comes through. -/
theorem closed_assign (h0 : 0 ∉ c :: t) (hc : isIdent c = true) {conf₁ : Config}
    (hrun : run { conf with src := c :: t ++ [0] } = .ok conf₁)
    (ih : ∀ {r : List UInt8} (conf : Config), r.length < (c :: t).length → 0 ∉ r →
      run { conf with src := r ++ [0] } = .ok conf₁ → Closed r) : Closed (c :: t) := by
  by_cases heq : (afterName (c :: t)).head? = some 61
  · obtain ⟨s, heq⟩ := List.head?_eq_some_iff.mp heq
    have hstart := (turn_ident conf hc).trans (assignment_equals conf heq)
    by_cases hline : 10 ∈ s.dropWhile isWhitespace
    · obtain ⟨val, u, hline, hnl⟩ := List.eq_append_cons_of_mem hline
      obtain ⟨hval0, hu0⟩ := value_nulFree h0 heq hline
      rcases value_cases val with hval | hval | ⟨p, rfl, hp⟩
      · obtain ⟨conf', hnext⟩ := run_assign conf h0 hc heq hline hnl hval
        have hlen : u.length < (c :: t).length := by
          have := (afterName_suffix heq).length_le
          rw [hline] at this
          simp only [List.length_append, List.length_cons] at this ⊢
          omega
        exact .assign hc heq hline hnl hval (ih conf' hlen hu0 (hnext.symm.trans hrun))
      · exact .badInit hc heq hline hnl hval
      · have herr := run_error _ (hstart.trans (initializer_open conf hline hnl (parseVal_open hp)))
        cases herr.symm.trans hrun
    · have herr := run_error _ (hstart.trans (initializer_absent conf hline))
      cases herr.symm.trans hrun
  · exact .noEquals hc heq

theorem closed_of_run {conf₁ : Config} (conf : Config) (h0 : 0 ∉ t)
    (hrun : run { conf with src := t ++ [0] } = .ok conf₁) : Closed t := by
  induction hn : t.length using Nat.strongRecOn generalizing t conf with
  | _ n ih =>
      subst hn
      cases t with
      | nil => exact .done
      | cons c t =>
          have h0' : 0 ∉ t := fun h => h0 (by simp [h])
          by_cases h91 : c = 91
          · subst h91
            by_cases h : 93 ∈ t
            · obtain ⟨s, r, rfl, hs⟩ := List.eq_append_cons_of_mem h
              rw [List.cons_append, List.append_assoc, List.cons_append, run_header conf hs] at hrun
              let conf' : Config :=
                { conf with currentSection := s, allSections := conf.allSections ++ [s] }
              have hlen : r.length < (91 :: (s ++ 93 :: r)).length := by
                simp only [List.length_append, List.length_cons]
                omega
              exact .header hs (ih r.length hlen conf' (fun h => h0' (by simp [h])) hrun rfl)
            · cases (run_error _ (turn_header_absent conf h)).symm.trans hrun
          by_cases h35 : c = 35
          · subst h35
            by_cases h : 10 ∈ t
            · obtain ⟨s, r, rfl, hs⟩ := List.eq_append_cons_of_mem h
              rw [List.cons_append, List.append_assoc, List.cons_append, run_comment conf hs] at hrun
              have hlen : r.length < (35 :: (s ++ 10 :: r)).length := by
                simp only [List.length_append, List.length_cons]
                omega
              exact .comment hs (ih r.length hlen conf (fun h => h0' (by simp [h])) hrun rfl)
            · cases (run_error _ (turn_comment_absent conf h)).symm.trans hrun
          by_cases hid : isIdent c = true
          · refine closed_assign conf h0 hid hrun fun {r} conf' hlen hr hrun' => ?_
            exact ih r.length hlen conf' hr hrun' rfl
          by_cases hw : isWhitespace c = true
          · rw [List.cons_append, run_whitespace conf hw] at hrun
            exact .blank hw (ih t.length (by simp) conf h0' hrun rfl)
          · exact .invalid ⟨h91, h35, by simpa using hid, by simpa using hw⟩

/-- `parseSrc` comes to its end with no read behind the NUL, with an error set or the whole text
consumed. -/
def StaysInside (conf : Config) : Prop := ∃ conf', parseSrc conf = .ok conf' ∧ Ended conf'

/-- **The parser stays inside a text exactly where the delimiters are there.** -/
theorem parseSrc_closed (conf : Config) (src : CStr) :
    StaysInside { conf with src := src.ptr } ↔ Closed src.chars := by
  constructor
  · rintro ⟨conf', hrun, -⟩
    exact closed_of_run { conf with currentSection := [] } src.nulFree hrun
  · intro h
    exact run_of_closed h src.nulFree { conf with currentSection := [] }

/-- A comment on a last line that has no newline. -/
theorem parseSrc_comment : ¬ StaysInside (fresh (.lit ['#'])) := by
  rintro ⟨conf', hrun, -⟩
  have h : parseSrc (fresh (.lit ['#'])) = .error .undefined := rfl
  cases h.symm.trans hrun

end Config
end RivOS
