import RivOS.Gen.Alpha
import RivOS.Lib.CString

/-!
# Rap — The text of `func.rap`

`RapFileSubDriver` (`drivers/fs/virtkrn/virtkrn.hpp`) writes its table of functions as text, one
function on a line: `name(type name type name )=address`, and `name( )=address` where there are no
parameters.  The strings that a `Str` holds are the bytes before its NUL.

* `fromu_eq`: `Str::fromu` writes the decimal digits.
* `read_text`: what `read` leaves in a buffer that the text fits in.
-/

namespace RivOS

/-! ### `Str::fromu` -/

/-- `buffer`, filled from the least significant digit; it has 11 places. -/
def fromuBuffer : Nat → Nat → List UInt8
  | 0, _ => []
  | k + 1, n => if 0 < n then UInt8.ofNat (48 + n % 10) :: fromuBuffer k (n / 10) else []

def fromu (n : Word) : List UInt8 := if n = 0 then [48] else (fromuBuffer 11 n.toNat).reverse

theorem fromuBuffer_eq {k n : Nat} (h : n < 10 ^ k) :
    fromuBuffer k n = (Nat.digits 10 n).map fun d => UInt8.ofNat (48 + d) := by
  induction k generalizing n with
  | zero =>
      obtain rfl : n = 0 := by omega
      rfl
  | succ k ih =>
      rw [fromuBuffer]
      split
      · next h0 =>
          have hlt : n / 10 < 10 ^ k := by omega
          rw [Nat.digits_def' (by decide) h0, List.map_cons, ih hlt]
      · next h0 =>
          obtain rfl : n = 0 := by omega
          rfl

theorem fromu_eq (n : Word) : fromu n = decimal n.toNat := by
  have hlt : n.toNat < 10 ^ 11 := by have := n.isLt; omega
  have h0 : n = 0 ↔ n.toNat = 0 := by simp [← BitVec.toNat_inj]
  rw [fromu, decimal]
  simp only [h0]
  split
  · rfl
  · rw [fromuBuffer_eq hlt, List.map_reverse]

/-! ### The table and its text -/

namespace RapFileSubDriver

structure Param where
  type : CStr
  name : CStr
deriving DecidableEq

structure Function where
  raw : Word
  name : CStr
  paraml : List Param
deriving DecidableEq

/-- What the loop over `paraml` adds. -/
def Param.toStr (param : Param) : List UInt8 :=
  param.type.chars ++ (32 :: param.name.chars ++ [32])

/-- What `toStr` adds to `out` between the parentheses. -/
def Function.params (f : Function) : List UInt8 :=
  f.paraml.flatMap Param.toStr ++ if f.paraml.length = 0 then [32] else []

def Function.toStr (f : Function) (out : List UInt8) : List UInt8 :=
  out ++ f.name.chars ++ 40 :: f.params ++ 41 :: 61 :: fromu f.raw

/-- `obuf[currentInd++] = c`, where there is room. -/
def put (len : Nat) (o : List UInt8 × Nat) (c : UInt8) : List UInt8 × Nat :=
  if o.2 < len then (o.1.set o.2 c, o.2 + 1) else o

/-- One turn of the loop over `functions`. -/
def putFunction (len : Nat) (o : List UInt8 × Nat) (f : Function) : List UInt8 × Nat :=
  put len ((f.toStr []).foldl (put len) o) 10

/-- `read(obuf, len)`: the buffer afterwards. -/
def read (functions : List Function) (obuf : List UInt8) (len : Nat) : List UInt8 :=
  (functions.foldl (putFunction len) (obuf, 0)).1

/-- One line. -/
def Function.line (f : Function) : List UInt8 := f.toStr [] ++ [10]

/-- The whole text. -/
def text (functions : List Function) : List UInt8 := functions.flatMap Function.line

/-- A type or a name of a parameter. -/
structure Plain (s : CStr) : Prop where
  ne_nil : s.chars ≠ []
  no_space : 32 ∉ s.chars
  no_paren : 41 ∉ s.chars
  no_newline : 10 ∉ s.chars

/-- A function that the format can hold. -/
structure Function.Spelled (f : Function) : Prop where
  name_paren : 40 ∉ f.name.chars
  name_newline : 10 ∉ f.name.chars
  params : ∀ p ∈ f.paraml, Plain p.type ∧ Plain p.name

variable {f : Function} {functions : List Function} {c : UInt8}

theorem Function.Spelled.withRaw (h : f.Spelled) (raw : Word) :
    Function.Spelled { f with raw := raw } := ⟨h.name_paren, h.name_newline, h.params⟩

/-- `putPixel`, with one of its parameters. -/
def putPixel : Function :=
  ⟨1063056, .lit ['p', 'u', 't', 'P', 'i', 'x', 'e', 'l'], [⟨.lit ['u', '3', '2'], .lit ['x']⟩]⟩

theorem putPixel_spelled : putPixel.Spelled := by
  refine ⟨by decide, by decide, fun p hp => ?_⟩
  rw [List.mem_singleton.mp hp]
  exact ⟨⟨by decide, by decide, by decide, by decide⟩, by decide, by decide, by decide, by decide⟩

/-- `getScreenWidth( )=1063196`. -/
def getScreenWidth : Function :=
  ⟨1063196, .lit ['g', 'e', 't', 'S', 'c', 'r', 'e', 'e', 'n', 'W', 'i', 'd', 't', 'h'], []⟩

theorem getScreenWidth_spelled : getScreenWidth.Spelled :=
  ⟨by decide, by decide, fun p hp => by cases hp⟩

/-! ### The characters of the text -/

theorem mem_params (h : c ∈ f.params) :
    c = 32 ∨ ∃ p ∈ f.paraml, c ∈ p.type.chars ∨ c ∈ p.name.chars := by
  rcases List.mem_append.mp h with h | h
  · obtain ⟨p, hp, h⟩ := List.mem_flatMap.mp h
    simp only [Param.toStr, List.cons_append, List.mem_append, List.mem_cons, List.not_mem_nil,
      or_false] at h
    rcases h with h | h | h | h
    · exact .inr ⟨p, hp, .inl h⟩
    · exact .inl h
    · exact .inr ⟨p, hp, .inr h⟩
    · exact .inl h
  · split at h
    · exact .inl (List.mem_singleton.mp h)
    · cases h

theorem mem_toStr (h : c ∈ f.toStr []) :
    c ∈ f.name.chars ∨ (∃ p ∈ f.paraml, c ∈ p.type.chars ∨ c ∈ p.name.chars) ∨
      c ∈ [32, 40, 41, 61] ∨ isdigit c = true := by
  simp only [Function.toStr, List.nil_append, List.append_assoc, List.mem_append, List.mem_cons,
    List.cons_append] at h
  rcases h with h | rfl | h | rfl | rfl | h
  · exact .inl h
  · exact .inr (.inr (.inl (by decide)))
  · rcases mem_params h with rfl | h
    · exact .inr (.inr (.inl (by decide)))
    · exact .inr (.inl h)
  · exact .inr (.inr (.inl (by decide)))
  · exact .inr (.inr (.inl (by decide)))
  · rw [fromu_eq] at h
    exact .inr (.inr (.inr (decimal_isdigit _ c h)))

theorem toStr_nulFree (f : Function) : 0 ∉ f.toStr [] := by
  intro h
  rcases mem_toStr h with h | ⟨p, -, h | h⟩ | h | h
  · exact f.name.nulFree h
  · exact p.type.nulFree h
  · exact p.name.nulFree h
  · exact absurd h (by decide)
  · exact absurd h (by decide)

theorem Function.Spelled.no_newline (hf : f.Spelled) : 10 ∉ f.toStr [] := by
  intro h
  rcases mem_toStr h with h | ⟨p, hp, h | h⟩ | h | h
  · exact hf.name_newline h
  · exact (hf.params p hp).1.no_newline h
  · exact (hf.params p hp).2.no_newline h
  · exact absurd h (by decide)
  · exact absurd h (by decide)

theorem line_nulFree (f : Function) : 0 ∉ f.line := by
  simpa [Function.line] using toStr_nulFree f

theorem text_nulFree (functions : List Function) : 0 ∉ text functions := by
  intro h
  obtain ⟨f, -, h⟩ := List.mem_flatMap.mp h
  exact line_nulFree f h

/-- A text that is not empty does not start with the NUL. -/
theorem text_head (r : List UInt8) (h : functions ≠ []) :
    ∃ c s, text functions ++ r = c :: s ∧ c ≠ 0 := by
  obtain ⟨f, fs, rfl⟩ := List.exists_cons_of_ne_nil h
  have hne : text (f :: fs) ≠ [] := by simp [text, Function.line]
  obtain ⟨c, s, e⟩ := List.exists_cons_of_ne_nil hne
  refine ⟨c, s ++ r, by rw [e]; rfl, fun h0 => text_nulFree (f :: fs) ?_⟩
  rw [e, h0]
  exact List.mem_cons_self

/-- One newline for each function. -/
theorem count_text (h : ∀ f ∈ functions, f.Spelled) :
    (text functions).count 10 = functions.length := by
  induction functions with
  | nil => rfl
  | cons f functions ih =>
      have hf : (f.toStr []).count 10 = 0 :=
        List.count_eq_zero.mpr (h f (by simp)).no_newline
      have := ih fun g hg => h g (by simp [hg])
      rw [text] at this
      rw [text, List.flatMap_cons, Function.line, List.count_append, List.count_append, hf, this]
      simp [Nat.add_comm]

/-! ### What `read` writes -/

theorem putAll {len : Nat} {w pre rest : List UInt8} (h : pre.length + w.length ≤ len)
    (hr : w.length ≤ rest.length) :
    w.foldl (put len) (pre ++ rest, pre.length)
      = (pre ++ w ++ rest.drop w.length, pre.length + w.length) := by
  induction w generalizing pre rest with
  | nil => simp
  | cons c w ih =>
      obtain ⟨b, rest, rfl⟩ : ∃ b rest', rest = b :: rest' := by
        cases rest with
        | nil => simp at hr
        | cons b rest' => exact ⟨b, rest', rfl⟩
      have hput : put len (pre ++ b :: rest, pre.length) c
          = ((pre ++ [c]) ++ rest, (pre ++ [c]).length) := by
        rw [put, if_pos (by simp at h; omega)]
        simp
      rw [List.foldl_cons, hput, ih (by simp at h ⊢; omega) (by simpa using hr)]
      simp [Nat.add_comm, Nat.add_left_comm]

theorem putFunction_eq (len : Nat) (o : List UInt8 × Nat) (f : Function) :
    putFunction len o f = f.line.foldl (put len) o := by
  rw [Function.line, List.foldl_append]
  rfl

/-- **The text in the buffer**: it starts the buffer, and the rest stays as it was. -/
theorem read_text {functions : List Function} {obuf : List UInt8} {len : Nat}
    (h : (text functions).length ≤ len) (hlen : obuf.length = len) :
    read functions obuf len = text functions ++ obuf.drop (text functions).length := by
  have hfold : functions.foldl (putFunction len) (obuf, 0)
      = (text functions).foldl (put len) (obuf, 0) := by
    rw [text, List.foldl_flatMap]
    congr 1
    funext o f
    exact putFunction_eq len o f
  have hput : (text functions).foldl (put len) (obuf, 0)
      = (text functions ++ obuf.drop (text functions).length, (text functions).length) := by
    simpa using @putAll len (text functions) [] obuf (by simpa using h) (by omega)
  rw [read, hfold, hput]

end RapFileSubDriver
end RivOS
