import RivOS.Gen.Format
import RivOS.Proc.Process
import RivOS.Support.Loops

/-!
# Proc — The list of processes to start

The loop of `_start` (`sbinSrc/sched/sched.c`) over `/etc/init.lst`, with `gen/string.h` of the
scheduler, whose scans for a character do not stop at a NUL.  A line is `path$name$PRIV`.

The buffer is the file and one NUL; reading on behind that is `undefined`.  `mmap i` is what the
`i`-th call of `mmap` returned, 0 where it failed: every `printf` makes one, and a process needs six.

* `readEntry_eq`: a line of the list, cut at its end, is read as it was written.
* `readInitList_iff`: when the list is read as it was written.
-/

namespace RivOS

namespace InitList

def newline : UInt8 := 10

/-- `'$'`. -/
def separator : UInt8 := 36

/-- A call of `loadProcess`. -/
structure LoadCall where
  fp : CStr
  pname : CStr
  privlvl : ProcessPriveledgeLevel
deriving DecidableEq

/-! ### The loop -/

/-- A source literal. -/
def text (cs : List Char) : CStr := .ofBuffer (ascii cs)

/-- The string at a pointer; what reads it does not stop before its NUL. -/
def str (p : Ptr) : Except Halt CStr := (p.scan (· = 0)).map fun _ => .ofBuffer p

/-- `strlenSpecChar`. -/
def strlenSpecChar (p : Ptr) (term : UInt8) : Except Halt Nat :=
  (p.scan (· = term)).map fun r => r.1.length

/-- `mmap`, `memset` and `strcpyLen` of `len` characters, and the string they make. -/
def copyLen (buf : Word) (p : Ptr) (len : Nat) : Except Halt CStr :=
  if buf = 0 ∨ p.length < len then .error .undefined else .ok (.ofBuffer (p.take len ++ [0]))

/-- The level of the three letters. -/
def privLvl (privBuf : CStr) : Option ProcessPriveledgeLevel :=
  if streq privBuf (text ['K', 'R', 'N']) then some .Kernel
  else if streq privBuf (text ['D', 'R', 'V']) then some .Driver
  else if streq privBuf (text ['U', 'S', 'R']) then some .User
  else none

/-- The line at `initialOffset`; `none` is `exit(1)`. -/
def readEntry (mmap : Nat → Word) (initialOffset : Ptr) : Except Halt (Option LoadCall) := do
  let line ← str initialOffset
  let _ ← Stdio.printf (mmap 0) (text "ProcessListEntry: '%s'".toList) [.str line]
  let occurence := countOccurence line.chars separator
  if occurence ≠ 2 then
    let _ ← Stdio.printf (mmap 1)
      (text "Invalid count of seperators ($) in /etc/init.lst: %u".toList)
      [.word (BitVec.ofNat 32 occurence)]
    return none
  let len ← strlenSpecChar initialOffset separator
  let procPathBuf ← copyLen (mmap 1) initialOffset len
  let _ ← Stdio.printf (mmap 2) (text "Process path: '%s'".toList) [.str procPathBuf]
  let initialOffset ← initialOffset.add (len + 1)
  let len ← strlenSpecChar initialOffset separator
  let procNameBuf ← copyLen (mmap 3) initialOffset len
  let _ ← Stdio.printf (mmap 4) (text "ProcessName='%s'".toList) [.str procNameBuf]
  let initialOffset ← initialOffset.add (len + 1)
  let privBuf ← str initialOffset
  if strlen privBuf ≠ 3 then
    let _ ← Stdio.printf (mmap 5)
      (text "Invalid length for last param, should be 3 (options:KRN/DRV/USR)".toList) []
    return none
  match privLvl privBuf with
  | none =>
      let _ ← Stdio.printf (mmap 5)
        (text "Invalid option for priveledge level: '%s'".toList) [.str privBuf]
      return none
  | some procPrivLvl =>
      let _ ← Stdio.printf (mmap 5) (text "Priv='%s'".toList) [.str privBuf]
      return some ⟨procPathBuf, procNameBuf, procPrivLvl⟩

structure State where
  initListBuf : List UInt8
  initListIterator : Nat
  mmaps : Nat
  calls : List LoadCall

/-- The calls made, and whether the scheduler left with `exit(1)`. -/
structure Outcome where
  calls : List LoadCall
  exited : Bool
deriving DecidableEq

/-- One turn: the newline is a NUL while the line is read. -/
def turn (mmap : Nat → Word) (s : State) : Except Halt (State ⊕ Outcome) := do
  let c ← Ptr.read (s.initListBuf.drop s.initListIterator)
  if c = 0 then return .inr ⟨s.calls, false⟩
  let (passed, _) ← Ptr.scan (s.initListBuf.drop s.initListIterator) (· = newline)
  let initListIterator := s.initListIterator + passed.length
  let cut := s.initListBuf.set initListIterator 0
  let entry ← readEntry (fun i => mmap (s.mmaps + i)) (cut.drop s.initListIterator)
  match entry with
  | none => return .inr ⟨s.calls, true⟩
  | some call => return .inl ⟨cut.set initListIterator newline, initListIterator + 1, s.mmaps + 6,
      s.calls ++ [call]⟩

def left (s : State) : Nat := s.initListBuf.length - s.initListIterator

/-- The list in a file. -/
def readInitList (mmap : Nat → Word) (file : List UInt8) : Except Halt Outcome :=
  if mmap 0 = 0 then .error .undefined
  else loop (turn mmap) .undefined left ⟨file ++ [0], 0, 1, []⟩

/-! ### The file -/

/-- The three letters of a level. -/
def privText : ProcessPriveledgeLevel → CStr
  | .Kernel => text ['K', 'R', 'N']
  | .Driver => text ['D', 'R', 'V']
  | .User => text ['U', 'S', 'R']

/-- An entry, and neither its path nor its name has a separator or a newline in it. -/
structure Entry where
  path : CStr
  name : CStr
  priv : ProcessPriveledgeLevel
  clean : ∀ c ∈ path.chars ++ name.chars, c ≠ separator ∧ c ≠ newline

namespace Entry

def call (e : Entry) : LoadCall := ⟨e.path, e.name, e.priv⟩

/-- `path$name$PRIV`. -/
def line (e : Entry) : List UInt8 :=
  e.path.chars ++ separator :: (e.name.chars ++ separator :: (privText e.priv).chars)

end Entry

/-- One entry a line; `ended` where the last line has a newline, too. -/
def listText (ended : Bool) : List Entry → List UInt8
  | [] => []
  | e :: es => e.line ++ (if es.isEmpty && !ended then [] else [newline]) ++ listText ended es

/-! ### Strings at a pointer -/

variable {e : Entry} {es : List Entry} {mmap : Nat → Word} {w r : List UInt8} {s : CStr} {c : UInt8}
  {out : Word} {n : Nat}

theorem ofBuffer_append (s : CStr) (r : List UInt8) : CStr.ofBuffer (s.chars ++ 0 :: r) = s := by
  have hs : ∀ a ∈ s.chars, decide (a ≠ 0) = true := by
    intro a ha
    simp only [decide_eq_true_eq]
    rintro rfl
    exact s.nulFree ha
  refine CStr.ext (?_ : (s.chars ++ 0 :: r).takeWhile _ = s.chars)
  rw [List.takeWhile_append_of_pos hs, List.takeWhile_cons_of_neg (by simp), List.append_nil]

theorem str_append (s : CStr) (r : List UInt8) : str (s.chars ++ 0 :: r) = .ok s := by
  rw [str, Ptr.scan_char s.nulFree, ofBuffer_append]
  rfl

theorem strlenSpecChar_append (h : c ∉ w) (r : List UInt8) :
    strlenSpecChar (w ++ c :: r) c = .ok w.length := by
  rw [strlenSpecChar, Ptr.scan_char h]
  rfl

/-- Behind the separator. -/
theorem add_separator (w r : List UInt8) (c : UInt8) :
    Ptr.add (w ++ c :: r) (w.length + 1) = .ok r := by
  have h := Ptr.add_append (w ++ [c]) r
  rwa [List.length_append, List.append_assoc] at h

/-- A string copied to `out`. -/
def copied (out : Word) (s : CStr) : Except Halt CStr :=
  if out = 0 then .error .undefined else .ok s

theorem copied_eq_ok {t : CStr} : copied out s = .ok t ↔ out ≠ 0 ∧ t = s := by
  rw [copied]
  split
  · next h => exact iff_of_false (fun he => by cases he) fun hne => hne.1 h
  · next h => exact ⟨fun he => ⟨h, (Except.ok.inj he).symm⟩, fun he => he.2 ▸ rfl⟩

theorem copyLen_append (s : CStr) (r : List UInt8) :
    copyLen out (s.chars ++ r) s.chars.length = copied out s := by
  have hlen : ¬ (s.chars ++ r).length < s.chars.length := by
    rw [List.length_append]
    omega
  rw [copyLen, copied, List.take_left, ofBuffer_append]
  simp only [hlen, or_false]

theorem privLvl_privText (priv : ProcessPriveledgeLevel) : privLvl (privText priv) = some priv := by
  cases priv <;> decide

theorem strlen_privText (priv : ProcessPriveledgeLevel) : strlen (privText priv) = 3 := by
  cases priv <;> decide

/-! ### A line -/

/-- A text, and a string between quotes. -/
theorem printf_quoted_ok_iff {fmt : CStr} (h : fmt.chars = w ++ [percent, 115, 39])
    (hw : percent ∉ w) (out : Word) (s : CStr) : (∃ t, Stdio.printf out fmt [.str s] = .ok t) ↔
      out ≠ 0 ∧ w.length + s.chars.length + 1 ≤ 4095 := by
  have hpieces : pieces Stdio.piece fmt.chars [.str s] =
      some (w.map Piece.literal ++ [⟨s.chars, true⟩, ⟨[39], true⟩], false) := by
    rw [h]
    exact pieces_append hw rfl
  have hwidth : width [⟨s.chars, true⟩, ⟨[39], true⟩] = s.chars.length + 1 := rfl
  rw [Stdio.printf, exists_map_ok_iff, Stdio.format_ok_iff_of_pieces hpieces, and_iff_left rfl,
    width_append, width_literals, hwidth, Nat.add_assoc]

namespace Entry

theorem separator_not_mem_path (e : Entry) : separator ∉ e.path.chars :=
  fun h => (e.clean _ (List.mem_append_left _ h)).1 rfl

theorem separator_not_mem_name (e : Entry) : separator ∉ e.name.chars :=
  fun h => (e.clean _ (List.mem_append_right _ h)).1 rfl

theorem privText_clean (priv : ProcessPriveledgeLevel) :
    0 ∉ (privText priv).chars ∧ separator ∉ (privText priv).chars ∧
      newline ∉ (privText priv).chars := by
  cases priv <;> decide

theorem mem_line_iff (e : Entry) (c : UInt8) : c ∈ e.line ↔
    c ∈ e.path.chars ∨ c = separator ∨ c ∈ e.name.chars ∨ c = separator ∨
      c ∈ (privText e.priv).chars := by
  simp only [line, List.mem_append, List.mem_cons]

theorem zero_not_mem_line (e : Entry) : 0 ∉ e.line := by
  rw [mem_line_iff]
  rintro (h | h | h | h | h)
  · exact e.path.nulFree h
  · cases h
  · exact e.name.nulFree h
  · cases h
  · exact (privText_clean e.priv).1 h

theorem newline_not_mem_line (e : Entry) : newline ∉ e.line := by
  rw [mem_line_iff]
  rintro (h | h | h | h | h)
  · exact (e.clean _ (List.mem_append_left _ h)).2 rfl
  · cases h
  · exact (e.clean _ (List.mem_append_right _ h)).2 rfl
  · cases h
  · exact (privText_clean e.priv).2.2 h

/-- A line as a string. -/
def lineStr (e : Entry) : CStr := ⟨e.line, e.zero_not_mem_line⟩

theorem count_separator (e : Entry) : countOccurence e.lineStr.chars separator = 2 := by
  have hpath := List.count_eq_zero_of_not_mem e.separator_not_mem_path
  have hname := List.count_eq_zero_of_not_mem e.separator_not_mem_name
  have hpriv := List.count_eq_zero_of_not_mem (privText_clean e.priv).2.1
  change List.count separator e.line = 2
  unfold line
  rw [List.count_append, List.count_cons_self, List.count_append, List.count_cons_self, hpath, hname,
    hpriv]

theorem length_line (e : Entry) :
    e.line.length = e.path.chars.length + e.name.chars.length + 5 := by
  have hpriv : (privText e.priv).chars.length = 3 := strlen_privText e.priv
  unfold line
  rw [List.length_append, List.length_cons, List.length_append, List.length_cons, hpriv]
  omega

end Entry

/-- The statements for a line that has its two separators and its level. -/
theorem readEntry_line (e : Entry) (r : List UInt8) : readEntry mmap (e.line ++ 0 :: r) = (do
    let _ ← Stdio.printf (mmap 0) (text "ProcessListEntry: '%s'".toList) [.str e.lineStr]
    let procPathBuf ← copied (mmap 1) e.path
    let _ ← Stdio.printf (mmap 2) (text "Process path: '%s'".toList) [.str procPathBuf]
    let procNameBuf ← copied (mmap 3) e.name
    let _ ← Stdio.printf (mmap 4) (text "ProcessName='%s'".toList) [.str procNameBuf]
    let _ ← Stdio.printf (mmap 5) (text "Priv='%s'".toList) [.str (privText e.priv)]
    return some ⟨procPathBuf, procNameBuf, e.priv⟩) := by
  have hstr : str (e.line ++ 0 :: r) = .ok e.lineStr := str_append e.lineStr r
  -- the rest of the line behind the path, and behind the name
  obtain ⟨q, hq⟩ : ∃ q, q = e.name.chars ++ separator :: ((privText e.priv).chars ++ 0 :: r) :=
    ⟨_, rfl⟩
  have hline : e.line ++ 0 :: r = e.path.chars ++ separator :: q := by
    rw [hq, Entry.line]
    simp only [List.append_assoc, List.cons_append]
  have hpath : strlenSpecChar (e.line ++ 0 :: r) separator = .ok e.path.chars.length := by
    rw [hline, strlenSpecChar_append e.separator_not_mem_path]
  have hcopy : copyLen (mmap 1) (e.line ++ 0 :: r) e.path.chars.length =
      copied (mmap 1) e.path := by
    rw [hline, copyLen_append]
  have hadd : Ptr.add (e.line ++ 0 :: r) (e.path.chars.length + 1) = .ok q := by
    rw [hline, add_separator]
  have hname : strlenSpecChar q separator = .ok e.name.chars.length := by
    rw [hq, strlenSpecChar_append e.separator_not_mem_name]
  have hcopy' : copyLen (mmap 3) q e.name.chars.length = copied (mmap 3) e.name := by
    rw [hq, copyLen_append]
  have hadd' : Ptr.add q (e.name.chars.length + 1) = .ok ((privText e.priv).chars ++ 0 :: r) := by
    rw [hq, add_separator]
  have hpriv : str ((privText e.priv).chars ++ 0 :: r) = .ok (privText e.priv) := str_append _ r
  simp only [readEntry, hstr, ok_bind, e.count_separator, ne_eq, not_true_eq_false, if_false, hpath,
    hcopy, hadd, hname, hcopy', hadd', hpriv, strlen_privText, privLvl_privText]

/-- The four texts that are printed for an entry. -/
theorem printf_texts_ok_iff (out : Word) (s : CStr) :
    ((∃ t, Stdio.printf out (text "ProcessListEntry: '%s'".toList) [.str s] = .ok t) ↔
      out ≠ 0 ∧ 19 + s.chars.length + 1 ≤ 4095) ∧
    ((∃ t, Stdio.printf out (text "Process path: '%s'".toList) [.str s] = .ok t) ↔
      out ≠ 0 ∧ 15 + s.chars.length + 1 ≤ 4095) ∧
    ((∃ t, Stdio.printf out (text "ProcessName='%s'".toList) [.str s] = .ok t) ↔
      out ≠ 0 ∧ 13 + s.chars.length + 1 ≤ 4095) ∧
    ((∃ t, Stdio.printf out (text "Priv='%s'".toList) [.str s] = .ok t) ↔
      out ≠ 0 ∧ 6 + s.chars.length + 1 ≤ 4095) := by
  have hentry : (text "ProcessListEntry: '%s'".toList).chars =
      ascii "ProcessListEntry: '".toList ++ [percent, 115, 39] := by decide
  have hpath : (text "Process path: '%s'".toList).chars =
      ascii "Process path: '".toList ++ [percent, 115, 39] := by decide
  have hname : (text "ProcessName='%s'".toList).chars =
      ascii "ProcessName='".toList ++ [percent, 115, 39] := by decide
  have hpriv : (text "Priv='%s'".toList).chars =
      ascii "Priv='".toList ++ [percent, 115, 39] := by decide
  exact ⟨printf_quoted_ok_iff hentry (by decide) out s, printf_quoted_ok_iff hpath (by decide) out s,
    printf_quoted_ok_iff hname (by decide) out s, printf_quoted_ok_iff hpriv (by decide) out s⟩

/-- **A line is read as it was written**, where its six blocks are there and it can be printed. -/
theorem readEntry_ok_iff (e : Entry) (r : List UInt8) (x : Option LoadCall) :
    readEntry mmap (e.line ++ 0 :: r) = .ok x ↔
      x = some e.call ∧ (∀ i < 6, mmap i ≠ 0) ∧ e.line.length ≤ 4075 := by
  have hlen := e.length_line
  rw [readEntry_line]
  constructor
  · intro h
    obtain ⟨t₀, h₀, h⟩ := bind_eq_ok.mp h
    obtain ⟨p, h₁, h⟩ := bind_eq_ok.mp h
    obtain ⟨t₂, h₂, h⟩ := bind_eq_ok.mp h
    obtain ⟨q, h₃, h⟩ := bind_eq_ok.mp h
    obtain ⟨t₄, h₄, h⟩ := bind_eq_ok.mp h
    obtain ⟨t₅, h₅, h⟩ := bind_eq_ok.mp h
    obtain ⟨hne₁, rfl⟩ := copied_eq_ok.mp h₁
    obtain ⟨hne₃, rfl⟩ := copied_eq_ok.mp h₃
    obtain ⟨hne₀, hfit⟩ := (printf_texts_ok_iff _ _).1.mp ⟨t₀, h₀⟩
    have hne₂ := ((printf_texts_ok_iff _ _).2.1.mp ⟨t₂, h₂⟩).1
    have hne₄ := ((printf_texts_ok_iff _ _).2.2.1.mp ⟨t₄, h₄⟩).1
    have hne₅ := ((printf_texts_ok_iff _ _).2.2.2.mp ⟨t₅, h₅⟩).1
    refine ⟨(Except.ok.inj h).symm, fun i hi => ?_, ?_⟩
    · obtain rfl | rfl | rfl | rfl | rfl | rfl : i = 0 ∨ i = 1 ∨ i = 2 ∨ i = 3 ∨ i = 4 ∨ i = 5 := by
        omega
      all_goals assumption
    · have : e.lineStr.chars.length = e.line.length := rfl
      omega
  · rintro ⟨rfl, hne, hfit⟩
    have hline : e.lineStr.chars.length = e.line.length := rfl
    have hpriv : (privText e.priv).chars.length = 3 := strlen_privText e.priv
    obtain ⟨t₀, h₀⟩ := (printf_texts_ok_iff (mmap 0) e.lineStr).1.mpr
      ⟨hne 0 (by decide), by omega⟩
    obtain ⟨t₂, h₂⟩ := (printf_texts_ok_iff (mmap 2) e.path).2.1.mpr ⟨hne 2 (by decide), by omega⟩
    obtain ⟨t₄, h₄⟩ := (printf_texts_ok_iff (mmap 4) e.name).2.2.1.mpr
      ⟨hne 4 (by decide), by omega⟩
    obtain ⟨t₅, h₅⟩ := (printf_texts_ok_iff (mmap 5) (privText e.priv)).2.2.2.mpr
      ⟨hne 5 (by decide), by omega⟩
    rw [h₀, ok_bind, copied_eq_ok.mpr ⟨hne 1 (by decide), rfl⟩, ok_bind, h₂, ok_bind,
      copied_eq_ok.mpr ⟨hne 3 (by decide), rfl⟩, ok_bind, h₄, ok_bind, h₅]
    rfl

/-! ### The turns -/

variable {pre : List UInt8} {calls : List LoadCall}

theorem turn_end (pre r : List UInt8) (n : Nat) (calls : List LoadCall) :
    turn mmap ⟨pre ++ 0 :: r, pre.length, n, calls⟩ = .ok (.inr ⟨calls, false⟩) := by
  simp only [turn, List.drop_left, Ptr.read_cons, ok_bind, if_true]
  rfl

/-- A line is not the end of the list. -/
theorem read_line (e : Entry) (r : List UInt8) : ∃ c, Ptr.read (e.line ++ r) = .ok c ∧ c ≠ 0 := by
  cases hl : e.line with
  | nil =>
      have := e.length_line
      rw [hl] at this
      cases this
  | cons c w => exact ⟨c, rfl, fun hc => e.zero_not_mem_line (by rw [hl, hc]; exact .head _)⟩

theorem set_behind (pre w r : List UInt8) (a b : UInt8) :
    (pre ++ (w ++ a :: r)).set (pre.length + w.length) b = pre ++ (w ++ b :: r) := by
  rw [List.set_append_right _ _ (by omega), Nat.add_sub_cancel_left,
    List.set_append_right _ _ (Nat.le_refl _), Nat.sub_self]
  rfl

/-- A line with its newline. -/
theorem turn_line (e : Entry) (pre r : List UInt8) (n : Nat) (calls : List LoadCall) :
    turn mmap ⟨pre ++ (e.line ++ newline :: r), pre.length, n, calls⟩ =
      readEntry (fun i => mmap (n + i)) (e.line ++ 0 :: r) >>= fun entry => match entry with
        | none => .ok (.inr ⟨calls, true⟩)
        | some call => .ok (.inl ⟨pre ++ (e.line ++ newline :: r), pre.length + e.line.length + 1,
            n + 6, calls ++ [call]⟩) := by
  obtain ⟨c, hread, hc⟩ := read_line e (newline :: r)
  have hscan : Ptr.scan (e.line ++ newline :: r) (· = newline) = .ok (e.line, newline :: r) :=
    Ptr.scan_char e.newline_not_mem_line
  simp only [turn, List.drop_left, hread, ok_bind, hc, if_false, hscan, set_behind]
  rfl

/-- The last line without a newline: the scan goes on behind the NUL. -/
theorem turn_unended (e : Entry) (pre : List UInt8) (n : Nat) (calls : List LoadCall) :
    turn mmap ⟨pre ++ (e.line ++ [0]), pre.length, n, calls⟩ = .error .undefined := by
  obtain ⟨c, hread, hc⟩ := read_line e [0]
  have hscan : Ptr.scan (e.line ++ [0]) (· = newline) = .error .undefined := by
    refine Ptr.scan_absent fun h => ?_
    rcases List.mem_append.mp h with h | h
    · exact e.newline_not_mem_line h
    · cases List.mem_singleton.mp h
  simp only [turn, List.drop_left, hread, ok_bind, hc, if_false, hscan]
  rfl

theorem turn_shrinks : Shrinks (turn mmap) left := by
  intro s t h
  obtain ⟨c, -, h⟩ := bind_eq_ok.mp h
  split at h
  · cases h
  · obtain ⟨⟨passed, q⟩, hscan, h⟩ := bind_eq_ok.mp h
    obtain ⟨_ | call, -, h⟩ := bind_eq_ok.mp h
    · cases h
    · cases h
      obtain ⟨d, q, rfl, -⟩ := (Cursor.scan_eq_some (orHalt_eq_ok.mp hscan)).2.2
      have hlen := Ptr.scan_length hscan
      rw [List.length_drop, List.length_cons] at hlen
      simp only [left, List.length_set]
      omega

/-! ### The list -/

/-- The first six calls of `mmap`, and the others. -/
theorem blocks_cons_iff {k : Nat} : (∀ i < 6 * (k + 1), mmap (n + i) ≠ 0) ↔
    (∀ i < 6, mmap (n + i) ≠ 0) ∧ ∀ i < 6 * k, mmap (n + 6 + i) ≠ 0 := by
  constructor
  · intro h
    refine ⟨fun i hi => h i (by omega), fun i hi => ?_⟩
    rw [Nat.add_assoc]
    exact h (6 + i) (by omega)
  · rintro ⟨h, h'⟩ i hi
    by_cases hlt : i < 6
    · exact h i hlt
    · have := h' (i - 6) (by omega)
      rwa [Nat.add_assoc, Nat.add_sub_cancel' (by omega)] at this

theorem loop_ok_iff (ended : Bool) (es : List Entry) (pre : List UInt8) (n : Nat)
    (calls : List LoadCall) :
    loop (turn mmap) .undefined left ⟨pre ++ (listText ended es ++ [0]), pre.length, n, calls⟩ =
        .ok ⟨calls ++ es.map Entry.call, false⟩ ↔
      (es = [] ∨ ended = true) ∧ (∀ e ∈ es, e.line.length ≤ 4075) ∧
        ∀ i < 6 * es.length, mmap (n + i) ≠ 0 := by
  induction es generalizing pre n calls with
  | nil =>
      refine iff_of_true ?_ ⟨.inl rfl, nofun, nofun⟩
      rw [List.map_nil, List.append_nil]
      exact loop_leave (turn_end pre [] n calls)
  | cons e es ih =>
      rw [loop_eq turn_shrinks, listText]
      cases hend : es.isEmpty && !ended with
      | true =>
          -- nothing behind the line
          rw [Bool.and_eq_true, List.isEmpty_iff, Bool.not_eq_true'] at hend
          obtain ⟨rfl, rfl⟩ := hend
          refine iff_of_false ?_ ?_
          · rw [if_pos rfl, listText, List.append_nil, List.append_nil, turn_unended]
            rintro ⟨⟩
          · rintro ⟨h | h, -⟩ <;> cases h
      | false =>
          have hended : es = [] ∨ ended = true ↔ e :: es = [] ∨ ended = true := by
            cases es <;> cases ended <;> simp_all
          have hbuf : e.line ++ [newline] ++ listText ended es ++ [0] =
              e.line ++ newline :: (listText ended es ++ [0]) := by simp
          have hpre : pre ++ (e.line ++ newline :: (listText ended es ++ [0])) =
              pre ++ (e.line ++ [newline]) ++ (listText ended es ++ [0]) := by simp
          have hlen : pre.length + e.line.length + 1 = (pre ++ (e.line ++ [newline])).length := by
            simp [Nat.add_assoc]
          have hcalls : calls ++ e.call :: es.map Entry.call =
              calls ++ [e.call] ++ es.map Entry.call := List.append_cons ..
          have hnext : loop (turn mmap) .undefined left
              ⟨pre ++ (e.line ++ newline :: (listText ended es ++ [0])),
                pre.length + e.line.length + 1, n + 6, calls ++ [e.call]⟩ =
                .ok ⟨calls ++ (e :: es).map Entry.call, false⟩ ↔
              (es = [] ∨ ended = true) ∧ (∀ e ∈ es, e.line.length ≤ 4075) ∧
                ∀ i < 6 * es.length, mmap (n + 6 + i) ≠ 0 := by
            rw [hpre, hlen, List.map_cons, hcalls]
            exact ih _ _ _
          rw [if_neg (by decide), hbuf, turn_line, ← hended, List.forall_mem_cons, List.length_cons,
            blocks_cons_iff]
          constructor
          · intro h
            obtain ⟨x, hx, h⟩ := bind_eq_ok.mp h
            obtain ⟨entry, hentry, hx⟩ := bind_eq_ok.mp hx
            obtain ⟨rfl, hblocks, hfit⟩ := (readEntry_ok_iff e _ entry).mp hentry
            cases hx
            obtain ⟨hend', hfits, hblocks'⟩ := hnext.mp h
            exact ⟨hend', ⟨hfit, hfits⟩, hblocks, hblocks'⟩
          · rintro ⟨hend', ⟨hfit, hfits⟩, hblocks, hblocks'⟩
            have hentry := (readEntry_ok_iff e (listText ended es ++ [0]) _).mpr
              ⟨rfl, hblocks, hfit⟩
            exact bind_eq_ok.mpr ⟨_, bind_eq_ok.mpr ⟨_, hentry, rfl⟩,
              hnext.mpr ⟨hend', hfits, hblocks'⟩⟩

/-- **When the list is read as it was written**: the last line has a newline, no line is longer than
a `printf` can print, and every `mmap` succeeds. -/
theorem readInitList_iff (mmap : Nat → Word) (ended : Bool) (es : List Entry) :
    readInitList mmap (listText ended es) = .ok ⟨es.map Entry.call, false⟩ ↔
      (es = [] ∨ ended = true) ∧ (∀ e ∈ es, e.line.length ≤ 4075) ∧
        ∀ i < 6 * es.length + 1, mmap i ≠ 0 := by
  have hblocks : (∀ i < 6 * es.length + 1, mmap i ≠ 0) ↔
      mmap 0 ≠ 0 ∧ ∀ i < 6 * es.length, mmap (1 + i) ≠ 0 := by
    constructor
    · exact fun h => ⟨h 0 (by omega), fun i hi => h (1 + i) (by omega)⟩
    · rintro ⟨h₀, h⟩ (- | i) hi
      · exact h₀
      · rw [Nat.add_comm]
        exact h i (by omega)
  rw [readInitList, hblocks]
  by_cases h₀ : mmap 0 = 0
  · rw [if_pos h₀]
    refine iff_of_false ?_ fun h => h.2.2.1 h₀
    rintro ⟨⟩
  · rw [if_neg h₀, and_iff_right h₀]
    exact loop_ok_iff ended es [] 1 []

/-! ### One process -/

theorem deEntry_clean : ∀ c ∈ (text "/krn/bin/de".toList).chars ++ (text "Vela".toList).chars,
    c ≠ separator ∧ c ≠ newline := by
  decide +kernel

def deEntry : Entry where
  path := text "/krn/bin/de".toList
  name := text "Vela".toList
  priv := .Kernel
  clean := deEntry_clean

/-- Without the newline the scan leaves the buffer. -/
theorem readInitList_unended :
    readInitList (fun _ => 0x1000) (listText false [deEntry]) = .error .undefined := by
  rw [readInitList, if_neg (by decide), loop_eq turn_shrinks]
  exact congrArg (· >>= _) (turn_unended deEntry [] 1 [])

end InitList

end RivOS
