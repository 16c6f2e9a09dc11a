import RivOS.Lib.Pointer
import RivOS.Rap.Text
import RivOS.Support.Loops

/-!
# Rap — The reader of the user programs

`parseRap` (`sbinSrc/sched/rap/rap.c`, and the same file under `sbinSrc/de`).  It reads the text
into a buffer of zeros and goes through it up to the first of the zeros that are left; the arrays
it fills have the lengths it asks `mmap` for, and an `mmap` gives the memory it is asked for.  Its
`strlenSpecChar` does not stop at a NUL.

* `parseRap_ok`: the table read back, with parameters or without.
-/

namespace RivOS

open RapFileSubDriver (Param Function text putPixel putPixel_spelled getScreenWidth
  getScreenWidth_spelled)

namespace ParseRap

structure RapParameter where
  type : List UInt8
  name : List UInt8
deriving DecidableEq

/-- `paramArr` is what has been written of its 16 places. -/
structure RapEntry where
  functionName : List UInt8
  callLocation : Word
  paramCount : Nat
  paramArr : List RapParameter
deriving DecidableEq

/-- `arr` is what has been written of its `len` places. -/
structure RapFile where
  len : Nat
  arr : List RapEntry
deriving DecidableEq

/-- `MEM_DEF_ALLOCSIZE`. -/
def memDefAllocsize : Nat := 0x10000

def strlenSpecChar (p : Ptr) (term : UInt8) : Except Halt Nat :=
  (p.scan (· = term)).map fun r => r.1.length

/-- `countOccurence(s, c)`, which goes up to the NUL. -/
def countOccurence (p : Ptr) (c : UInt8) : Except Halt Nat :=
  (p.scan (· = 0)).map fun r => r.1.count c

/-! ### The parameters -/

/-- The places of `paramArr` written so far, and `buf`. -/
abbrev Params := List RapParameter × Ptr

/-- `if (*buf == ' ') buf++`, and the same with the newline. -/
def skipChar (p : Ptr) (c : UInt8) : Except Halt Ptr := do
  let b ← p.read
  if b = c then p.add 1 else .ok p

/-- One parameter, in the next place of `paramArr`. -/
def param (s : Params) (strlenOfType : Nat) : Except Halt Params := do
  let typebuf := s.2.take strlenOfType
  let p ← s.2.add (strlenOfType + 1)
  let strlenOfVarName ← strlenSpecChar p 32
  let namebuf := p.take strlenOfVarName
  let p ← p.add strlenOfVarName
  let p ← skipChar p 32
  if s.1.length < 16 then .ok (s.1 ++ [⟨typebuf, namebuf⟩], p) else .error .undefined

/-- The body of `while (*buf != ')')`: left by `break` where the type is empty. -/
def paramBody (s : Params) : Except Halt (Params ⊕ Params) := do
  let strlenOfType ← strlenSpecChar s.2 32
  if strlenOfType = 0 then .ok (.inr s) else (param s strlenOfType).map .inl

def paramTurn (s : Params) : Except Halt (Params ⊕ Params) := do
  let c ← s.2.read
  if c = 41 then .ok (.inr s) else paramBody s

def paramLoop (s : Params) : Except Halt Params :=
  loop paramTurn .undefined (fun s => s.2.length) s

/-! ### The entries -/

/-- The places of `entriesArr` written so far, and `buf`. -/
abbrev Entries := List RapEntry × Ptr

/-- From the parameters on: `while (*buf++ != '=') {}`, the address, and the newline skipped. -/
def address (p : Ptr) : Except Halt (Word × Ptr) := do
  let (_, p) ← p.scan (· = 61)
  let p ← p.add 1
  let strlenOfAddr ← strlenSpecChar p 10
  let callLocation := stou (p.take strlenOfAddr)
  let p ← p.add strlenOfAddr
  let p ← skipChar p 10
  .ok (callLocation, p)

/-- One line, in the next place of `entriesArr`. -/
def entry (rapEntries : Nat) (s : Entries) : Except Halt Entries := do
  let strlenOfFuncName ← strlenSpecChar s.2 40
  let funcNameBuf := s.2.take strlenOfFuncName
  let p ← s.2.add (strlenOfFuncName + 1)
  let (paramArr, p) ← paramLoop ([], p)
  let (callLocation, p) ← address p
  if s.1.length < rapEntries then
    .ok (s.1 ++ [⟨funcNameBuf, callLocation, paramArr.length, paramArr⟩], p)
  else .error .undefined

/-- `while (*buf)`. -/
def entryTurn (rapEntries : Nat) (s : Entries) : Except Halt (Entries ⊕ RapFile) := do
  let c ← s.2.read
  if c = 0 then .ok (.inr ⟨rapEntries, s.1⟩) else (entry rapEntries s).map .inl

def entryLoop (rapEntries : Nat) (s : Entries) : Except Halt RapFile :=
  loop (entryTurn rapEntries) .undefined (fun s => s.2.length) s

/-- The part of `parseRap` after the call of `read`. -/
def parse (buf : Ptr) : Except Halt RapFile := do
  let rapEntries ← countOccurence buf 10
  entryLoop rapEntries ([], buf)

/-- `parseRap`, on the `func.rap` of a kernel with this table. -/
def parseRap (functions : List Function) : Except Halt RapFile :=
  parse (RapFileSubDriver.read functions (List.replicate memDefAllocsize 0) memDefAllocsize)

variable {s t : Params} {es es' : Entries} {p q r : Ptr} {count n : Nat} {c : UInt8}

/-! ### Every turn moves on -/

theorem skipChar_length (h : skipChar p c = .ok q) : q.length ≤ p.length := by
  obtain ⟨b, -, h⟩ := bind_eq_ok.mp h
  split at h
  · have := Ptr.add_length h
    omega
  · cases h
    exact Nat.le_refl _

theorem param_length (h : param s n = .ok t) : t.2.length < s.2.length := by
  obtain ⟨p, h₁, h⟩ := bind_eq_ok.mp h
  obtain ⟨m, -, h⟩ := bind_eq_ok.mp h
  obtain ⟨p', h₂, h⟩ := bind_eq_ok.mp h
  obtain ⟨q, h₃, h⟩ := bind_eq_ok.mp h
  have := Ptr.add_length h₁
  have := Ptr.add_length h₂
  have := skipChar_length h₃
  split at h
  · cases h
    simp only
    omega
  · cases h

theorem paramTurn_cases {x : Params ⊕ Params} (h : paramTurn s = .ok x) :
    x = .inr s ∨ ∃ n t, param s n = .ok t ∧ x = .inl t := by
  obtain ⟨c, -, h⟩ := bind_eq_ok.mp h
  split at h
  · cases h
    exact .inl rfl
  · obtain ⟨n, -, h⟩ := bind_eq_ok.mp h
    split at h
    · cases h
      exact .inl rfl
    · obtain ⟨t, ht, rfl⟩ := map_eq_ok.mp h
      exact .inr ⟨n, t, ht, rfl⟩

theorem shrinks_paramTurn : Shrinks paramTurn fun s => s.2.length := by
  intro s t h
  rcases paramTurn_cases h with e | ⟨n, t', ht, e⟩
  · cases e
  · cases e
    exact param_length ht

theorem paramLoop_length (h : paramLoop s = .ok t) : t.2.length ≤ s.2.length := by
  refine loop_inv (I := fun x : Params => x.2.length ≤ s.2.length)
    (Q := fun x : Params => x.2.length ≤ s.2.length) ?_ ?_ (Nat.le_refl _) h
  · intro x y hx hxy
    have := shrinks_paramTurn hxy
    simp only at this
    omega
  · intro x y hx hxy
    rcases paramTurn_cases hxy with e | ⟨n, t', ht, e⟩
    · cases e
      exact hx
    · cases e

theorem address_length {w : Word} (h : address p = .ok (w, q)) : q.length < p.length := by
  obtain ⟨⟨w', p₁⟩, h₁, h⟩ := bind_eq_ok.mp h
  obtain ⟨p₂, h₂, h⟩ := bind_eq_ok.mp h
  obtain ⟨n, -, h⟩ := bind_eq_ok.mp h
  obtain ⟨p₃, h₃, h⟩ := bind_eq_ok.mp h
  obtain ⟨p₄, h₄, h⟩ := bind_eq_ok.mp h
  cases h
  have := Ptr.scan_length h₁
  have := Ptr.add_length h₂
  have := Ptr.add_length h₃
  have := skipChar_length h₄
  omega

theorem entry_length (h : entry count es = .ok es') : es'.2.length < es.2.length := by
  obtain ⟨n, -, h⟩ := bind_eq_ok.mp h
  obtain ⟨p₁, h₁, h⟩ := bind_eq_ok.mp h
  obtain ⟨⟨ps, p₂⟩, h₂, h⟩ := bind_eq_ok.mp h
  obtain ⟨⟨w, p₃⟩, h₃, h⟩ := bind_eq_ok.mp h
  have := Ptr.add_length h₁
  have : p₂.length ≤ p₁.length := paramLoop_length h₂
  have := address_length h₃
  simp only at h
  split at h
  · cases h
    simp only
    omega
  · cases h

theorem shrinks_entryTurn (count : Nat) : Shrinks (entryTurn count) fun s => s.2.length := by
  intro s t h
  obtain ⟨c, -, h⟩ := bind_eq_ok.mp h
  split at h
  · cases h
  · obtain ⟨t', ht, e⟩ := map_eq_ok.mp h
    cases e
    exact entry_length ht

/-! ### What the parser makes of a line -/

def ofParam (p : Param) : RapParameter := ⟨p.type.chars, p.name.chars⟩

/-- The entry of a function. -/
def ofFunction (f : Function) : RapEntry :=
  ⟨f.name.chars, f.raw, f.paraml.length, f.paraml.map ofParam⟩

/-- The file that holds a table. -/
def ofFunctions (functions : List Function) : RapFile :=
  ⟨functions.length, functions.map ofFunction⟩

theorem strlenSpecChar_append {w : List UInt8} (h : c ∉ w) :
    strlenSpecChar (w ++ c :: r) c = .ok w.length := by
  rw [strlenSpecChar, Ptr.scan_char h]
  rfl

theorem skipChar_self (c : UInt8) (r : Ptr) : skipChar (c :: r) c = .ok r := by
  rw [skipChar, Ptr.read_cons, ok_bind, if_pos rfl, Ptr.add_one_cons]

theorem param_toStr {args : List RapParameter} {x : Param} (hn : 32 ∉ x.name.chars)
    (hargs : args.length < 16) :
    param (args, x.toStr ++ r) x.type.chars.length = .ok (args ++ [ofParam x], r) := by
  have e : x.toStr ++ r = x.type.chars ++ 32 :: (x.name.chars ++ 32 :: r) := by
    simp [Param.toStr]
  have hadd : Ptr.add (x.type.chars ++ 32 :: (x.name.chars ++ 32 :: r)) (x.type.chars.length + 1)
      = .ok (x.name.chars ++ 32 :: r) :=
    Ptr.add_add (Ptr.add_append _ _) (Ptr.add_one_cons _ _)
  simp only [param, e, hadd, ok_bind, strlenSpecChar_append hn, Ptr.add_append, skipChar_self,
    List.take_left, if_pos hargs]
  rfl

/-- The blank that stands for no parameters is left where it is. -/
def blank (ps : List Param) : List UInt8 := if ps.length = 0 then [32] else []

theorem paramLoop_blank (args : List RapParameter) (ps : List Param) :
    paramLoop (args, blank ps ++ 41 :: r) = .ok (args, blank ps ++ 41 :: r) := by
  refine loop_leave ?_
  rw [blank]
  split
  · have hlen : strlenSpecChar (32 :: 41 :: r) 32 = .ok 0 := strlenSpecChar_append (w := []) (by simp)
    simp [paramTurn, paramBody, hlen, ok_bind]
  · simp [paramTurn, ok_bind]

theorem paramLoop_toStr {args : List RapParameter} {ps qs : List Param}
    (h : ∀ x ∈ ps, RapFileSubDriver.Plain x.type ∧ RapFileSubDriver.Plain x.name)
    (hlen : args.length + ps.length ≤ 16) :
    paramLoop (args, ps.flatMap Param.toStr ++ (blank qs ++ 41 :: r))
      = .ok (args ++ ps.map ofParam, blank qs ++ 41 :: r) := by
  induction ps generalizing args with
  | nil => simpa using paramLoop_blank args qs
  | cons x ps ih =>
      obtain ⟨ht, hn⟩ := h x (by simp)
      obtain ⟨c, w, hw⟩ := List.exists_cons_of_ne_nil ht.ne_nil
      have hc : c ≠ 41 := fun e => ht.no_paren (by simp [hw, e])
      have hlt : args.length < 16 := by
        rw [List.length_cons] at hlen
        omega
      have e : (x :: ps).flatMap Param.toStr ++ (blank qs ++ 41 :: r)
          = x.toStr ++ (ps.flatMap Param.toStr ++ (blank qs ++ 41 :: r)) := by
        simp
      have htype : strlenSpecChar (x.toStr ++ (ps.flatMap Param.toStr ++ (blank qs ++ 41 :: r))) 32
          = .ok x.type.chars.length := by
        have := strlenSpecChar_append (r := x.name.chars ++ 32 ::
          (ps.flatMap Param.toStr ++ (blank qs ++ 41 :: r))) ht.no_space
        simpa [Param.toStr] using this
      have hread : Ptr.read (x.toStr ++ (ps.flatMap Param.toStr ++ (blank qs ++ 41 :: r)))
          = .ok c := by
        simp [Param.toStr, hw]
      have hne : x.type.chars.length ≠ 0 := by simp [hw]
      have hturn : paramTurn (args, (x :: ps).flatMap Param.toStr ++ (blank qs ++ 41 :: r))
          = .ok (.inl (args ++ [ofParam x], ps.flatMap Param.toStr ++ (blank qs ++ 41 :: r))) := by
        rw [e]
        simp only [paramTurn, paramBody, hread, ok_bind, hc, if_false, htype, hne,
          param_toStr hn.no_space hlt]
        rfl
      calc paramLoop (args, (x :: ps).flatMap Param.toStr ++ (blank qs ++ 41 :: r))
          = paramLoop (args ++ [ofParam x], ps.flatMap Param.toStr ++ (blank qs ++ 41 :: r)) :=
            loop_turn shrinks_paramTurn hturn
        _ = .ok (args ++ (x :: ps).map ofParam, blank qs ++ 41 :: r) := by
            rw [ih (fun y hy => h y (by simp [hy])) (by simp at hlen ⊢; omega)]
            simp

theorem address_line (ps : List Param) (w : Word) :
    address (blank ps ++ 41 :: (61 :: (fromu w ++ 10 :: r))) = .ok (w, r) := by
  have hdig : ∀ c ∈ fromu w, isdigit c = true := by
    rw [fromu_eq]
    exact decimal_isdigit _
  have hequals : Ptr.scan (blank ps ++ 41 :: (61 :: (fromu w ++ 10 :: r))) (· = 61)
      = .ok (blank ps ++ [41], 61 :: (fromu w ++ 10 :: r)) := by
    have hnot : (61 : UInt8) ∉ blank ps ++ [41] := by
      rw [blank]
      split <;> decide
    simpa using Ptr.scan_char (r := fromu w ++ 10 :: r) hnot
  have hend : strlenSpecChar (fromu w ++ 10 :: r) 10 = .ok (fromu w).length := by
    refine strlenSpecChar_append fun h => ?_
    exact absurd (hdig 10 h) (by decide)
  have hval : stou (fromu w) = w := by
    rw [stou_digits hdig, fromu_eq, decVal_decimal, BitVec.ofNat_toNat, BitVec.setWidth_eq]
  simp only [address, hequals, ok_bind, Ptr.add_one_cons, hend, List.take_left, hval,
    Ptr.add_append, skipChar_self]

/-- One line, where there is a place left for its entry. -/
theorem entry_line {f : Function} {arr : List RapEntry} (h : f.Spelled) (hp : f.paraml.length ≤ 16)
    (hcount : arr.length < count) :
    entry count (arr, f.line ++ r) = .ok (arr ++ [ofFunction f], r) := by
  have e : f.line ++ r
      = f.name.chars ++ 40 :: (f.paraml.flatMap Param.toStr ++
          (blank f.paraml ++ 41 :: (61 :: (fromu f.raw ++ 10 :: r)))) := by
    simp [Function.line, Function.toStr, Function.params, blank]
  have hadd : Ptr.add (f.line ++ r) (f.name.chars.length + 1)
      = .ok (f.paraml.flatMap Param.toStr ++
          (blank f.paraml ++ 41 :: (61 :: (fromu f.raw ++ 10 :: r)))) := by
    rw [e]
    exact Ptr.add_add (Ptr.add_append _ _) (Ptr.add_one_cons _ _)
  have hname : strlenSpecChar (f.line ++ r) 40 = .ok f.name.chars.length := by
    rw [e]
    exact strlenSpecChar_append h.name_paren
  have htake : (f.line ++ r).take f.name.chars.length = f.name.chars := by
    rw [e, List.take_left]
  have hloop := @paramLoop_toStr (61 :: (fromu f.raw ++ 10 :: r)) [] f.paraml f.paraml h.params
    (by simpa using hp)
  simp only [entry, hname, htake, hadd, hloop, ok_bind, address_line, if_pos hcount]
  simp [ofFunction]

/-! ### The whole text -/

variable {functions : List Function}

theorem entryTurn_line {f : Function} {arr : List RapEntry} (h : f.Spelled)
    (hp : f.paraml.length ≤ 16) (hcount : arr.length < count) :
    entryTurn count (arr, f.line ++ r) = .ok (.inl (arr ++ [ofFunction f], r)) := by
  obtain ⟨c, w, e, hc⟩ := @RapFileSubDriver.text_head [f] r (List.cons_ne_nil f [])
  have hread : Ptr.read (f.line ++ r) = .ok c := by
    have : text [f] = f.line := by simp [text]
    rw [← this, e, Ptr.read_cons]
  simp only [entryTurn, hread, ok_bind, hc, if_false, entry_line h hp hcount]
  rfl

theorem entryLoop_text {arr : List RapEntry} (h : ∀ f ∈ functions, f.Spelled)
    (hp : ∀ f ∈ functions, f.paraml.length ≤ 16) :
    entryLoop (arr.length + functions.length) (arr, text functions ++ 0 :: r)
      = .ok ⟨arr.length + functions.length, arr ++ functions.map ofFunction⟩ := by
  induction functions generalizing arr with
  | nil =>
      refine loop_leave ?_
      simp [entryTurn, text, ok_bind]
  | cons f fs ih =>
      have e : text (f :: fs) ++ 0 :: r = f.line ++ (text fs ++ 0 :: r) := by
        simp [text]
      have hroom : arr.length < arr.length + (f :: fs).length := by
        rw [List.length_cons]
        omega
      have hturn := entryTurn_line (r := text fs ++ 0 :: r) (h f (by simp)) (hp f (by simp)) hroom
      have hlen : arr.length + (f :: fs).length = (arr ++ [ofFunction f]).length + fs.length := by
        simp
        omega
      rw [e, entryLoop, loop_turn (shrinks_entryTurn _) hturn, hlen]
      have := @ih (arr ++ [ofFunction f]) (fun g hg => h g (by simp [hg]))
        fun g hg => hp g (by simp [hg])
      rw [entryLoop] at this
      rw [this]
      simp

/-- **The user programs read the table that was written.** -/
theorem parseRap_ok (h : ∀ f ∈ functions, f.Spelled) (hp : ∀ f ∈ functions, f.paraml.length ≤ 16)
    (hlen : (text functions).length < memDefAllocsize) :
    parseRap functions = .ok (ofFunctions functions) := by
  obtain ⟨k, hk⟩ : ∃ k, memDefAllocsize - (text functions).length = k + 1 :=
    ⟨memDefAllocsize - (text functions).length - 1, by omega⟩
  have hbuf : RapFileSubDriver.read functions (List.replicate memDefAllocsize 0) memDefAllocsize
      = text functions ++ 0 :: List.replicate k 0 := by
    rw [RapFileSubDriver.read_text (by omega) List.length_replicate, List.drop_replicate, hk]
    rfl
  have hcount : countOccurence (text functions ++ 0 :: List.replicate k 0) 10
      = .ok functions.length := by
    rw [countOccurence, Ptr.scan_char (RapFileSubDriver.text_nulFree functions)]
    exact congrArg _ (RapFileSubDriver.count_text h)
  have := @entryLoop_text (List.replicate k 0) functions [] h hp
  rw [List.length_nil, Nat.zero_add] at this
  rw [parseRap, hbuf, parse, hcount, ok_bind, this]
  rfl

/-- `getScreenWidth( )=1063196` and a function with a parameter, above 2^31. -/
def someFunctions : List Function :=
  [getScreenWidth, { putPixel with raw := 0xC0000000 }]

theorem parseRap_someFunctions : parseRap someFunctions = .ok (ofFunctions someFunctions) := by
  have hspelled : ∀ f ∈ someFunctions, f.Spelled := by
    intro f hf
    rcases List.mem_cons.mp hf with rfl | hf
    · exact getScreenWidth_spelled
    · rw [List.mem_singleton.mp hf]
      exact putPixel_spelled.withRaw _
  exact parseRap_ok hspelled (by decide) (by decide)

end ParseRap
end RivOS
