import RivOS.Gen.Map
import RivOS.Lib.Pointer
import RivOS.Rap.Text
import RivOS.Support.Loops

/-!
# Rap — The kernel's reader

`RapFile::parseFile` (`rap/rap.hpp`).  A `StringView` is the characters it covers; the heap copies
the parser makes and never frees are not modelled.  The parser has no branch for the line of a
function without parameters: there it takes the blank between the parentheses for the end of an
empty type, and runs on into the text behind.

* `parseFile_iff`: the table is read back where every function has a parameter, and only there.
-/

namespace RivOS

open RapFileSubDriver (Param Function text putPixel putPixel_spelled getScreenWidth
  getScreenWidth_spelled)

namespace RapFile

structure RapEntryParam where
  type : List UInt8
  name : List UInt8
deriving DecidableEq

structure RapEntry where
  args : List RapEntryParam
  addr : Word
deriving DecidableEq

abbrev Mapping := Map (List UInt8) RapEntry

/-! ### The parameters -/

/-- The parameters so far, and `cStr`. -/
abbrev Params := List RapEntryParam × Ptr

/-- One type and one name, with the blank behind each. -/
def param (s : Params) : Except Halt Params := do
  let (type, p) ← s.2.scan (· = 32)
  let p ← p.add 1
  let (name, p) ← p.scan (· = 32)
  let p ← p.add 1
  .ok (s.1 ++ [⟨type, name⟩], p)

/-- `while (*cStr != ')')`. -/
def paramTurn (s : Params) : Except Halt (Params ⊕ Params) := do
  let c ← s.2.read
  if c = 41 then .ok (.inr s) else (param s).map .inl

def paramLoop (s : Params) : Except Halt Params :=
  loop paramTurn .undefined (fun s => s.2.length) s

/-! ### The entries -/

structure State where
  cStr : Ptr
  mainMapping : Mapping
  rapEntriesParsed : Nat

/-- The rest of a line, from the `)` on: the address, and the newline skipped. -/
def address (p : Ptr) : Except Halt (Word × Ptr) := do
  let close ← p.strlenSpecChar 41
  let p ← p.add (close + 2)
  let distanceUntilNewline ← p.strlenSpecChar 10
  let addr := stoi (p.take distanceUntilNewline)
  let p ← p.add distanceUntilNewline
  let p ← p.add 1
  .ok (addr, p)

/-- One line. -/
def entry (s : State) : Except Halt State := do
  let namelen ← s.cStr.strlenSpecChar 40
  let nameSv := s.cStr.take namelen
  let p ← s.cStr.add namelen
  let p ← p.add 1
  let (paraml, p) ← paramLoop ([], p)
  let (addr, p) ← address p
  .ok ⟨p, s.mainMapping.insert nameSv ⟨paraml, addr⟩, s.rapEntriesParsed + 1⟩

/-- `rapEntriesParsed >= rapEntriesCount || !(*cStr)`; the second is not read if the first holds. -/
def atEnd (rapEntriesCount : Nat) (s : State) : Except Halt Bool :=
  if rapEntriesCount ≤ s.rapEntriesParsed then .ok true else s.cStr.read.map fun c => c = 0

/-- `while (true)`. -/
def entryTurn (rapEntriesCount : Nat) (s : State) : Except Halt (State ⊕ Mapping) := do
  let s ← entry s
  let done ← atEnd rapEntriesCount s
  .ok (if done then .inr s.mainMapping else .inl s)

def entryLoop (rapEntriesCount : Nat) (s : State) : Except Halt Mapping :=
  loop (entryTurn rapEntriesCount) .undefined (fun s => s.cStr.length) s

/-- `parseFile`: the mapping it leaves. -/
def parseFile (src : CStr) : Except Halt Mapping :=
  entryLoop (countOccurence src.chars 10) ⟨src.ptr, ⟨[]⟩, 0⟩

variable {s t : Params} {st st' : State} {p q r : Ptr} {m : Mapping} {count k : Nat}

/-! ### Every turn moves on -/

theorem param_length (h : param s = .ok t) : t.2.length < s.2.length := by
  obtain ⟨⟨type, p⟩, h₁, h⟩ := bind_eq_ok.mp h
  obtain ⟨p', h₂, h⟩ := bind_eq_ok.mp h
  obtain ⟨⟨name, q⟩, h₃, h⟩ := bind_eq_ok.mp h
  obtain ⟨q', h₄, h⟩ := bind_eq_ok.mp h
  cases h
  have := Ptr.scan_length h₁
  have := Ptr.add_length h₂
  have := Ptr.scan_length h₃
  have := Ptr.add_length h₄
  simp only
  omega

theorem param_args (h : param s = .ok t) : ∃ x, t.1 = s.1 ++ [x] := by
  obtain ⟨⟨type, p⟩, -, h⟩ := bind_eq_ok.mp h
  obtain ⟨p', -, h⟩ := bind_eq_ok.mp h
  obtain ⟨⟨name, q⟩, -, h⟩ := bind_eq_ok.mp h
  obtain ⟨q', -, h⟩ := bind_eq_ok.mp h
  cases h
  exact ⟨_, rfl⟩

theorem paramTurn_cases {x : Params ⊕ Params} (h : paramTurn s = .ok x) :
    (∃ r, s.2 = 41 :: r ∧ x = .inr s) ∨
      ∃ c r, s.2 = c :: r ∧ c ≠ 41 ∧ ∃ t, param s = .ok t ∧ x = .inl t := by
  obtain ⟨c, hc, h⟩ := bind_eq_ok.mp h
  obtain ⟨r, hr⟩ := Ptr.read_eq_ok.mp hc
  split at h
  · next e =>
      cases h
      exact .inl ⟨r, e ▸ hr, rfl⟩
  · next e =>
      obtain ⟨t, ht, rfl⟩ := map_eq_ok.mp h
      exact .inr ⟨c, r, hr, e, t, ht, rfl⟩

theorem shrinks_paramTurn : Shrinks paramTurn fun s => s.2.length := by
  intro s t h
  obtain ⟨_, _, e⟩ | ⟨_, _, _, _, t', ht, e⟩ := paramTurn_cases h
  · cases e
  · cases e
    exact param_length ht

theorem paramLoop_length (h : paramLoop s = .ok t) : t.2.length ≤ s.2.length := by
  refine loop_inv (I := fun x : Params => x.2.length ≤ s.2.length)
    (Q := fun x : Params => x.2.length ≤ s.2.length) ?_ ?_ (Nat.le_refl _) h
  · intro x y hx hxy
    have := shrinks_paramTurn hxy
    simp only at this
    omega
  · intro x y hx hxy
    obtain ⟨_, _, e⟩ | ⟨_, _, _, _, _, _, e⟩ := paramTurn_cases hxy
    · cases e
      exact hx
    · cases e

theorem address_length {addr : Word} (h : address p = .ok (addr, q)) : q.length < p.length := by
  obtain ⟨close, -, h⟩ := bind_eq_ok.mp h
  obtain ⟨p₁, h₁, h⟩ := bind_eq_ok.mp h
  obtain ⟨dist, -, h⟩ := bind_eq_ok.mp h
  obtain ⟨p₂, h₂, h⟩ := bind_eq_ok.mp h
  obtain ⟨p₃, h₃, h⟩ := bind_eq_ok.mp h
  cases h
  have := Ptr.add_length h₁
  have := Ptr.add_length h₂
  have := Ptr.add_length h₃
  omega

/-- What one line leaves: one more entry, with the parameters the loop over them returns. -/
theorem entry_cases (h : entry st = .ok st') :
    ∃ nameSv p t addr, paramLoop ([], p) = .ok t ∧ st'.cStr.length < st.cStr.length ∧
      st'.mainMapping.entries = st.mainMapping.entries ++ [(nameSv, ⟨t.1, addr⟩)] ∧
      ∃ namelen, st.cStr.strlenSpecChar 40 = .ok namelen ∧ st.cStr.add (namelen + 1) = .ok p := by
  obtain ⟨namelen, h₀, h⟩ := bind_eq_ok.mp h
  obtain ⟨p₁, h₁, h⟩ := bind_eq_ok.mp h
  obtain ⟨p₂, h₂, h⟩ := bind_eq_ok.mp h
  obtain ⟨⟨paraml, p₃⟩, h₃, h⟩ := bind_eq_ok.mp h
  obtain ⟨⟨addr, p₄⟩, h₄, h⟩ := bind_eq_ok.mp h
  cases h
  have := Ptr.add_length h₁
  have := Ptr.add_length h₂
  have : p₃.length ≤ p₂.length := paramLoop_length h₃
  have := address_length h₄
  refine ⟨_, p₂, (paraml, p₃), addr, h₃, ?_, rfl, namelen, h₀, Ptr.add_add h₁ h₂⟩
  simp only
  omega

theorem entryTurn_cases {x : State ⊕ Mapping} (h : entryTurn count st = .ok x) :
    ∃ st', entry st = .ok st' ∧ (x = .inl st' ∨ x = .inr st'.mainMapping) := by
  obtain ⟨st', h₁, h⟩ := bind_eq_ok.mp h
  obtain ⟨done, -, h⟩ := bind_eq_ok.mp h
  refine ⟨st', h₁, ?_⟩
  cases done <;> cases h
  · exact .inl rfl
  · exact .inr rfl

theorem shrinks_entryTurn (count : Nat) : Shrinks (entryTurn count) fun s => s.cStr.length := by
  intro s t h
  obtain ⟨st', h₁, e | e⟩ := entryTurn_cases h
  · cases e
    obtain ⟨_, _, _, _, _, hlt, _⟩ := entry_cases h₁
    exact hlt
  · cases e

/-! ### What the parser makes of a line -/

def ofParam (p : Param) : RapEntryParam := ⟨p.type.chars, p.name.chars⟩

/-- The entry of a function. -/
def ofFunction (f : Function) : List UInt8 × RapEntry :=
  (f.name.chars, ⟨f.paraml.map ofParam, f.raw⟩)

/-- The mapping that holds a table. -/
def ofFunctions (functions : List Function) : Mapping := ⟨functions.map ofFunction⟩

theorem param_toStr {args : List RapEntryParam} {x : Param} (ht : 32 ∉ x.type.chars)
    (hn : 32 ∉ x.name.chars) :
    param (args, x.toStr ++ r) = .ok (args ++ [ofParam x], r) := by
  have h : x.toStr ++ r = x.type.chars ++ 32 :: (x.name.chars ++ 32 :: r) := by
    simp [Param.toStr]
  rw [param, h, Ptr.scan_char ht]
  simp only [bind, Except.bind, Ptr.add_one_cons, Ptr.scan_char hn]
  rfl

theorem paramLoop_toStr {args : List RapEntryParam} {ps : List Param}
    (h : ∀ x ∈ ps, RapFileSubDriver.Plain x.type ∧ RapFileSubDriver.Plain x.name) :
    paramLoop (args, ps.flatMap Param.toStr ++ 41 :: r) = .ok (args ++ ps.map ofParam, 41 :: r) := by
  induction ps generalizing args with
  | nil => exact loop_leave (by simp [paramTurn, bind, Except.bind])
  | cons x ps ih =>
      obtain ⟨ht, hn⟩ := h x (by simp)
      obtain ⟨c, w, hw⟩ := List.exists_cons_of_ne_nil ht.ne_nil
      -- the type is not empty, so that its first character is not the `)`
      have hc : c ≠ 41 := fun e => ht.no_paren (by simp [hw, e])
      have hparam : param (args, x.toStr ++ (ps.flatMap Param.toStr ++ 41 :: r))
          = .ok (args ++ [ofParam x], ps.flatMap Param.toStr ++ 41 :: r) :=
        param_toStr ht.no_space hn.no_space
      have hturn : paramTurn (args, (x :: ps).flatMap Param.toStr ++ 41 :: r)
          = .ok (.inl (args ++ [ofParam x], ps.flatMap Param.toStr ++ 41 :: r)) := by
        rw [List.flatMap_cons, List.append_assoc, paramTurn, hparam]
        simp [Param.toStr, hw, hc, bind, Except.bind, Except.map]
      calc paramLoop (args, (x :: ps).flatMap Param.toStr ++ 41 :: r)
          = paramLoop (args ++ [ofParam x], ps.flatMap Param.toStr ++ 41 :: r) :=
            loop_turn shrinks_paramTurn hturn
        _ = .ok (args ++ (x :: ps).map ofParam, 41 :: r) := by
            rw [ih fun y hy => h y (by simp [hy])]
            simp

theorem address_line (w : Word) : address (41 :: 61 :: (fromu w ++ 10 :: r)) = .ok (w, r) := by
  have hdig : ∀ c ∈ fromu w, isdigit c = true := by
    rw [fromu_eq]
    exact decimal_isdigit _
  have hnot (c : UInt8) (h : isdigit c = false) : c ∉ fromu w := fun hc => by
    rw [hdig c hc] at h
    cases h
  have hclose : Ptr.strlenSpecChar (41 :: 61 :: (fromu w ++ 10 :: r)) 41 = .ok 0 :=
    Ptr.strlenSpecChar_append (w := []) (by simp) (by simp)
  have hopen : Ptr.add (41 :: 61 :: (fromu w ++ 10 :: r)) (0 + 2) = .ok (fromu w ++ 10 :: r) :=
    Ptr.add_append [41, 61] _
  have hend : Ptr.strlenSpecChar (fromu w ++ 10 :: r) 10 = .ok (fromu w).length :=
    Ptr.strlenSpecChar_append (hnot 10 (by decide)) (hnot 0 (by decide))
  have hval : stoi (fromu w) = w := by
    rw [stoi_digits hdig, fromu_eq, decVal_decimal, BitVec.ofNat_toNat, BitVec.setWidth_eq]
  simp only [address, hclose, hopen, hend, ok_bind, List.take_left, hval, Ptr.add_append,
    Ptr.add_one_cons]

/-- The pointer and the entries where the parser has read a name. -/
theorem name_line {f : Function} (h : f.Spelled) :
    Ptr.strlenSpecChar (f.line ++ r) 40 = .ok f.name.chars.length ∧
      (f.line ++ r).take f.name.chars.length = f.name.chars ∧
      Ptr.add (f.line ++ r) f.name.chars.length
        = .ok (40 :: (f.params ++ 41 :: 61 :: (fromu f.raw ++ 10 :: r))) := by
  have e : f.line ++ r
      = f.name.chars ++ 40 :: (f.params ++ 41 :: 61 :: (fromu f.raw ++ 10 :: r)) := by
    simp [Function.line, Function.toStr]
  rw [e]
  exact ⟨Ptr.strlenSpecChar_append h.name_paren f.name.nulFree, by simp, Ptr.add_append _ _⟩

/-- The line of a function that has parameters. -/
theorem entry_line {f : Function} (h : f.Spelled) (hp : f.paraml ≠ []) :
    entry ⟨f.line ++ r, m, k⟩ = .ok ⟨r, m.insert f.name.chars (ofFunction f).2, k + 1⟩ := by
  obtain ⟨hlen, htake, hadd⟩ := name_line (r := r) h
  have hparams : f.params = f.paraml.flatMap Param.toStr := by
    simp [Function.params, hp]
  have hloop : paramLoop ([], f.params ++ 41 :: 61 :: (fromu f.raw ++ 10 :: r))
      = .ok (f.paraml.map ofParam, 41 :: 61 :: (fromu f.raw ++ 10 :: r)) := by
    rw [hparams]
    exact paramLoop_toStr h.params
  simp only [entry, hlen, htake, hadd, hloop, ok_bind, Ptr.add_one_cons, address_line]
  rfl

theorem paramLoop_blank (h : paramLoop ([], 32 :: p) = .ok t) : t.1 ≠ [] := by
  refine loop_inv (I := fun x : Params => x.1 ≠ [] ∨ x.2.head? = some 32)
    (Q := fun x : Params => x.1 ≠ []) ?_ ?_ (.inr rfl) h
  · intro x y _ hxy
    obtain ⟨_, _, e⟩ | ⟨_, _, _, _, y', hy, e⟩ := paramTurn_cases hxy
    · cases e
    · cases e
      obtain ⟨a, ha⟩ := param_args hy
      simp [ha]
  · intro x y hx hxy
    obtain ⟨q, hq, e⟩ | ⟨_, _, _, _, _, _, e⟩ := paramTurn_cases hxy
    · cases e
      rcases hx with hx | hx
      · exact hx
      · simp [hq] at hx
    · cases e

/-- The line of a function without parameters, if the parser comes to the end of it: the entry
has a parameter. -/
theorem entry_blank {f : Function} (h : f.Spelled) (hp : f.paraml = [])
    (he : entry ⟨f.line ++ r, m, k⟩ = .ok st) :
    ∃ nameSv e, st.mainMapping.entries = m.entries ++ [(nameSv, e)] ∧ e.args ≠ [] := by
  obtain ⟨hlen, -, hadd⟩ := name_line (r := r) h
  obtain ⟨nameSv, p, t, addr, hloop, -, hm, namelen, hlen', hadd'⟩ := entry_cases he
  have e : p = 32 :: 41 :: 61 :: (fromu f.raw ++ 10 :: r) := by
    obtain rfl : f.name.chars.length = namelen := Except.ok.inj (hlen.symm.trans hlen')
    have := Ptr.add_add hadd (Ptr.add_one_cons _ _)
    simpa [Function.params, hp] using (Except.ok.inj (this.symm.trans hadd')).symm
  subst e
  exact ⟨nameSv, _, hm, paramLoop_blank hloop⟩

/-! ### The whole text -/

variable {functions : List Function}

theorem atEnd_text (m : Mapping) (k : Nat) :
    atEnd (k + functions.length) ⟨text functions ++ [0], m, k⟩
      = .ok (decide (functions = [])) := by
  by_cases h : functions = []
  · simp [atEnd, h]
  · obtain ⟨c, s, e, hc⟩ := RapFileSubDriver.text_head [0] h
    have hlen : 0 < functions.length := List.length_pos_iff.mpr h
    rw [atEnd, if_neg (by simp only; omega), e]
    simp [Except.map, hc, h]

theorem entryTurn_line {f : Function} (h : f.Spelled) (hp : f.paraml ≠ []) (m : Mapping) (k : Nat) :
    entryTurn (k + (f :: functions).length) ⟨text (f :: functions) ++ [0], m, k⟩
      = .ok (if functions = [] then .inr (m.insert f.name.chars (ofFunction f).2)
          else .inl ⟨text functions ++ [0], m.insert f.name.chars (ofFunction f).2, k + 1⟩) := by
  have e : text (f :: functions) ++ [0] = f.line ++ (text functions ++ [0]) := by
    simp [text]
  have hcount : k + (f :: functions).length = k + 1 + functions.length := by
    rw [List.length_cons]
    omega
  rw [e, hcount, entryTurn, entry_line h hp]
  simp only [ok_bind, atEnd_text]
  by_cases hfs : functions = [] <;> simp [hfs]

theorem entryLoop_text (hne : functions ≠ []) (h : ∀ f ∈ functions, f.Spelled)
    (hp : ∀ f ∈ functions, f.paraml ≠ []) (m : Mapping) (k : Nat) :
    entryLoop (k + functions.length) ⟨text functions ++ [0], m, k⟩
      = .ok ⟨m.entries ++ functions.map ofFunction⟩ := by
  induction functions generalizing m k with
  | nil => exact absurd rfl hne
  | cons f fs ih =>
      have hturn := @entryTurn_line fs f (h f (by simp)) (hp f (by simp)) m k
      by_cases hfs : fs = []
      · rw [if_pos hfs] at hturn
        rw [entryLoop, loop_leave hturn, hfs]
        rfl
      · rw [if_neg hfs] at hturn
        have hcount : k + (f :: fs).length = k + 1 + fs.length := by
          rw [List.length_cons]
          omega
        rw [entryLoop, loop_turn (shrinks_entryTurn _) hturn, hcount]
        have := ih hfs (fun g hg => h g (by simp [hg])) (fun g hg => hp g (by simp [hg]))
          (m.insert f.name.chars (ofFunction f).2) (k + 1)
        rw [entryLoop] at this
        rw [this]
        simp [Map.insert, ofFunction]

/-- The entries that a run of the parser has made stay as they are. -/
theorem entryLoop_prefix {es : List (List UInt8 × RapEntry)}
    (h₀ : es <+: st.mainMapping.entries) (h : entryLoop count st = .ok m) : es <+: m.entries := by
  refine loop_inv (I := fun x : State => es <+: x.mainMapping.entries)
    (Q := fun x : Mapping => es <+: x.entries) ?_ ?_ h₀ h
  · intro x y hx hxy
    obtain ⟨x', he, e | e⟩ := entryTurn_cases hxy
    · cases e
      obtain ⟨_, _, _, _, _, _, hm, _⟩ := entry_cases he
      exact hm ▸ hx.trans (List.prefix_append _ _)
    · cases e
  · intro x y hx hxy
    obtain ⟨x', he, e | e⟩ := entryTurn_cases hxy
    · cases e
    · cases e
      obtain ⟨_, _, _, _, _, _, hm, _⟩ := entry_cases he
      exact hm ▸ hx.trans (List.prefix_append _ _)

/-- A run that ends has read a first line, and kept its entry. -/
theorem entryLoop_first (h : entryLoop count st = .ok m) :
    ∃ st', entry st = .ok st' ∧ st'.mainMapping.entries <+: m.entries := by
  rw [entryLoop, loop_eq (shrinks_entryTurn count)] at h
  obtain ⟨x, hx, h⟩ := bind_eq_ok.mp h
  obtain ⟨st', he, e | e⟩ := entryTurn_cases hx
  · rw [e] at h
    exact ⟨st', he, entryLoop_prefix List.prefix_rfl h⟩
  · rw [e] at h
    cases h
    exact ⟨st', he, List.prefix_rfl⟩

/-- The first function without parameters gets an entry that has one, if the parser comes past it
at all. -/
theorem entryLoop_blank (h : ∀ f ∈ functions, f.Spelled) (hp : ∃ f ∈ functions, f.paraml = [])
    (k : Nat) :
    entryLoop (k + functions.length) ⟨text functions ++ [0], m, k⟩
      ≠ .ok ⟨m.entries ++ functions.map ofFunction⟩ := by
  induction functions generalizing m k with
  | nil => simp at hp
  | cons f fs ih =>
      intro hrun
      by_cases hf : f.paraml = []
      · have e : text (f :: fs) ++ [0] = f.line ++ (text fs ++ [0]) := by
          simp [text]
        rw [e] at hrun
        obtain ⟨st', he, hpre⟩ := entryLoop_first hrun
        obtain ⟨nameSv, x, hm, hx⟩ := entry_blank (h f (by simp)) hf he
        rw [hm, List.map_cons, List.prefix_append_right_inj, List.cons_prefix_cons] at hpre
        refine hx ?_
        rw [congrArg (fun y => y.2.args) hpre.1, ofFunction, hf]
        rfl
      · have hturn := @entryTurn_line fs f (h f (by simp)) hf m k
        have hrest : ∃ g ∈ fs, g.paraml = [] := by
          obtain ⟨g, hg, hgp⟩ := hp
          rcases List.mem_cons.mp hg with rfl | hg
          · exact absurd hgp hf
          · exact ⟨g, hg, hgp⟩
        have hfs : fs ≠ [] := by
          rintro rfl
          simp at hrest
        rw [if_neg hfs] at hturn
        have hcount : k + (f :: fs).length = k + 1 + fs.length := by
          rw [List.length_cons]
          omega
        rw [entryLoop, loop_turn (shrinks_entryTurn _) hturn, hcount] at hrun
        refine ih (fun g hg => h g (by simp [hg])) hrest (k + 1) (hrun.trans ?_)
        simp [Map.insert, ofFunction]

/-- The text of a table as a string. -/
def source (functions : List Function) : CStr :=
  ⟨text functions, RapFileSubDriver.text_nulFree functions⟩

theorem parseFile_source (h : ∀ f ∈ functions, f.Spelled) :
    parseFile (source functions)
      = entryLoop (0 + functions.length) ⟨text functions ++ [0], ⟨[]⟩, 0⟩ := by
  rw [parseFile, countOccurence, source, RapFileSubDriver.count_text h, Nat.zero_add]
  rfl

/-- **When the kernel reads back the table that was written**: where every function in it has a
parameter. -/
theorem parseFile_iff (hne : functions ≠ []) (h : ∀ f ∈ functions, f.Spelled) :
    parseFile (source functions) = .ok (ofFunctions functions) ↔
      ∀ f ∈ functions, f.paraml ≠ [] := by
  rw [parseFile_source h]
  constructor
  · intro hrun f hf hp
    exact entryLoop_blank h ⟨f, hf, hp⟩ 0 hrun
  · intro hp
    exact entryLoop_text hne h hp ⟨[]⟩ 0

theorem parseFile_putPixel :
    parseFile (source [putPixel]) = .ok (ofFunctions [putPixel]) := by
  have hspelled : ∀ f ∈ [putPixel], f.Spelled := by
    intro f hf
    rw [List.mem_singleton.mp hf]
    exact putPixel_spelled
  exact (parseFile_iff (List.cons_ne_nil _ _) hspelled).mpr (by decide)

/-- On its line alone the parser reads past the end of the text. -/
theorem parseFile_getScreenWidth :
    ¬ ∀ functions : List Function, functions ≠ [] → (∀ f ∈ functions, f.Spelled) →
      parseFile (source functions) = .ok (ofFunctions functions) := by
  intro h
  have hspelled : ∀ f ∈ [getScreenWidth], f.Spelled := by
    intro f hf
    rw [List.mem_singleton.mp hf]
    exact getScreenWidth_spelled
  have hrun : parseFile (source [getScreenWidth]) = .error .undefined := by rfl
  have := (h [getScreenWidth] (List.cons_ne_nil _ _) hspelled).symm.trans hrun
  cases this

end RapFile
end RivOS
