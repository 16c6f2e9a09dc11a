import RivOS.Gen.Alpha
import RivOS.Lib.Pointer

/-!
# Gen — Formatted output

`writef` and `logf` of `gen/serial.hpp`, as the debug build has them, and `printf` and `logf` of
`sys/stdio.c` of the user programs.  A buffer is what has been written to it, so that `pos` is its
length; a write behind its end is `undefined`, and so is a read of the format behind its NUL.

`Serial` leaves its loop, and stops copying a string, where the buffer has room for the NUL only;
the digits of a number it writes without asking.  `stdio.c` never asks.  A `%` at the end of a format
moves both of them behind the NUL.

* `Formatter.loop_cons`: one turn of the loop is one piece of the output.
* `Serial.format_ok_iff`, `Stdio.format_ok_iff`: when the output stays in the buffer.
-/

namespace RivOS

/-- A variable argument: a string, or a word. -/
inductive Arg where
  | str (s : CStr)
  | word (n : Word)
deriving DecidableEq

/-- `va_arg(args, const char*)`. -/
def vaStr : List Arg → Except Halt (CStr × List Arg)
  | .str s :: args => .ok (s, args)
  | _ => .error .undefined

/-- `va_arg(args, u32)`. -/
def vaWord : List Arg → Except Halt (Word × List Arg)
  | .word n :: args => .ok (n, args)
  | _ => .error .undefined

/-- `buf[pos++] = c`, in a buffer of `room` characters. -/
def put (room : Nat) (buf : List UInt8) (c : UInt8) : Except Halt (List UInt8) :=
  if buf.length < room then .ok (buf ++ [c]) else .error .undefined

def putAll (room : Nat) (buf s : List UInt8) : Except Halt (List UInt8) := s.foldlM (put room) buf

/-- A digit, `alpha` the letter for ten. -/
def digitChar (alpha : UInt8) (d : Nat) : UInt8 :=
  if d < 10 then 48 + UInt8.ofNat d else alpha + UInt8.ofNat d - 10

/-- What `tmp` holds, from its last character to its first. -/
def numeral (base : Nat) (alpha : UInt8) (n : Word) : List UInt8 :=
  if n = 0 then [48] else (Nat.digits base n.toNat).reverse.map (digitChar alpha)

def percent : UInt8 := 37

/-- The size of a buffer, whether the loop goes on at a position, and what a conversion does. -/
structure Formatter where
  room : Nat
  goOn : Nat → Bool
  convert : UInt8 → List Arg → List UInt8 → Except Halt (List UInt8 × List Arg)

/-- The loop over the format.  Behind a `%` at the end of it there is nothing to read. -/
def Formatter.loop (F : Formatter) : List UInt8 → List Arg → List UInt8 → Except Halt (List UInt8)
  | [], _, buf => .ok buf
  | c :: fmt, args, buf =>
      if F.goOn buf.length = false then .ok buf
      else if c ≠ percent then put F.room buf c >>= F.loop fmt args
      else match fmt with
        | [] => .error .undefined
        | k :: fmt => F.convert k args buf >>= fun (buf, args) => F.loop fmt args buf

/-- The text in the buffer: `buffer[pos] = 0` ends it. -/
def Formatter.format (F : Formatter) (fmt : CStr) (args : List Arg) : Except Halt CStr := do
  let buf ← F.loop fmt.chars args []
  let buf ← put F.room buf 0
  return .ofBuffer buf

/-! ### Of the kernel -/

namespace Serial

/-- `while (*s && pos < sizeof(buffer) - 1) buffer[pos++] = *s++`. -/
def copyStr : List UInt8 → List UInt8 → List UInt8
  | buf, [] => buf
  | buf, c :: s => if buf.length < 255 then copyStr (buf ++ [c]) s else buf

/-- `%s`, `%c`, `%u` and `%x`. -/
def convert (k : UInt8) (args : List Arg) (buf : List UInt8) : Except Halt (List UInt8 × List Arg) :=
  if k = 115 then do
    let (s, args) ← vaStr args
    return (copyStr buf s.chars, args)
  else if k = 99 then do
    let (n, args) ← vaWord args
    (put 256 buf (UInt8.ofNat n.toNat)).map (·, args)
  else if k = 117 then do
    let (n, args) ← vaWord args
    (putAll 256 buf (numeral 10 65 n)).map (·, args)
  else if k = 120 then do
    let (n, args) ← vaWord args
    (putAll 256 buf (numeral 16 65 n)).map (·, args)
  else return (buf, args)

def formatter : Formatter := ⟨256, fun pos => pos < 255, convert⟩

/-- What goes out at the port. -/
def writef (fmt : CStr) (args : List Arg) : Except Halt (List UInt8) :=
  (formatter.format fmt args).map fun buffer => buffer.chars ++ ascii ['\n']

def logf (fmt : CStr) (args : List Arg) : Except Halt (List UInt8) :=
  (formatter.format fmt args).map fun buffer =>
    ascii ['[', 'L', 'O', 'G', ']', ':', ' '] ++ buffer.chars ++ ascii ['\n']

end Serial

/-! ### Of the user programs -/

namespace Stdio

/-- `%%`, `%s`, `%c`, `%u`, `%d` and `%x`. -/
def convert (k : UInt8) (args : List Arg) (buf : List UInt8) : Except Halt (List UInt8 × List Arg) :=
  if k = 37 then (put 4096 buf percent).map (·, args)
  else if k = 115 then do
    let (s, args) ← vaStr args
    (putAll 4096 buf s.chars).map (·, args)
  else if k = 99 then do
    let (n, args) ← vaWord args
    (put 4096 buf (UInt8.ofNat n.toNat)).map (·, args)
  else if k = 117 then do
    let (n, args) ← vaWord args
    (putAll 4096 buf (numeral 10 97 n)).map (·, args)
  else if k = 100 then do
    let (n, args) ← vaWord args
    if n.slt 0 then do
      let buf ← put 4096 buf 45
      (putAll 4096 buf (numeral 10 97 (-n))).map (·, args)
    else (putAll 4096 buf (numeral 10 97 n)).map (·, args)
  else if k = 120 then do
    let (n, args) ← vaWord args
    (putAll 4096 buf (numeral 16 97 n)).map (·, args)
  else return (buf, args)

def formatter : Formatter := ⟨4096, fun _ => true, convert⟩

/-- `out` is what `mmap(4096)` returned, 0 where it failed. -/
def format (out : Word) (fmt : CStr) (args : List Arg) : Except Halt CStr :=
  if out = 0 then .error .undefined else formatter.format fmt args

/-- What is written to `stdout`. -/
def printf (out : Word) (fmt : CStr) (args : List Arg) : Except Halt (List UInt8) :=
  (format out fmt args).map (·.chars)

/-- What is written to `stdlog`. -/
def logf (out : Word) (fmt : CStr) (args : List Arg) : Except Halt (List UInt8) :=
  (format out fmt args).map (·.chars)

end Stdio

/-! ### Pieces -/

/-- What one turn adds to the output; `checked` where it is cut at the end of the buffer. -/
structure Piece where
  text : List UInt8
  checked : Bool

def width (ps : List Piece) : Nat := (ps.map (·.text.length)).sum

/-- What a conversion adds to the output; `none` where the arguments are of other kinds. -/
abbrev Pieces : Type := UInt8 → List Arg → Option (Piece × List Arg)

/-- The pieces of the output, and whether the format ends with a `%`. -/
def pieces (piece : Pieces) : List UInt8 → List Arg → Option (List Piece × Bool)
  | [], _ => some ([], false)
  | c :: fmt, args =>
      if c ≠ percent then (pieces piece fmt args).map (Prod.map (⟨[c], true⟩ :: ·) id)
      else match fmt with
        | [] => some ([], true)
        | k :: fmt => (piece k args).bind fun (p, args) =>
            (pieces piece fmt args).map (Prod.map (p :: ·) id)

/-- The arguments are of the kinds the format asks for. -/
def Matching (piece : Pieces) (fmt : CStr) (args : List Arg) : Prop :=
  (pieces piece fmt.chars args).isSome

def strPiece (piece : CStr → Piece) : List Arg → Option (Piece × List Arg)
  | .str s :: args => some (piece s, args)
  | _ => none

def wordPiece (piece : Word → Piece) : List Arg → Option (Piece × List Arg)
  | .word n :: args => some (piece n, args)
  | _ => none

def Serial.piece : Pieces := fun k args =>
  if k = 115 then strPiece (fun s => ⟨s.chars, true⟩) args
  else if k = 99 then wordPiece (fun n => ⟨[UInt8.ofNat n.toNat], true⟩) args
  else if k = 117 then wordPiece (fun n => ⟨numeral 10 65 n, false⟩) args
  else if k = 120 then wordPiece (fun n => ⟨numeral 16 65 n, false⟩) args
  else some (⟨[], true⟩, args)

def Stdio.signed (n : Word) : List UInt8 :=
  if n.slt 0 then 45 :: numeral 10 97 (-n) else numeral 10 97 n

def Stdio.piece : Pieces := fun k args =>
  if k = 37 then some (⟨[percent], true⟩, args)
  else if k = 115 then strPiece (fun s => ⟨s.chars, true⟩) args
  else if k = 99 then wordPiece (fun n => ⟨[UInt8.ofNat n.toNat], true⟩) args
  else if k = 117 then wordPiece (fun n => ⟨numeral 10 97 n, true⟩) args
  else if k = 100 then wordPiece (fun n => ⟨signed n, true⟩) args
  else if k = 120 then wordPiece (fun n => ⟨numeral 16 97 n, true⟩) args
  else some (⟨[], true⟩, args)

/-! ### One turn -/

variable {F : Formatter} {spec : Pieces} {wr : Piece → List UInt8 → Except Halt (List UInt8)}
  {fmt : List UInt8} {args args' : List Arg} {buf s : List UInt8} {ps : List Piece} {p : Piece}
  {lone : Bool} {room n : Nat} {k c : UInt8}

theorem put_eq_putAll (room : Nat) (buf : List UInt8) (c : UInt8) :
    put room buf c = putAll room buf [c] := (bind_pure _).symm

theorem putAll_eq (s : List UInt8) (h : buf.length ≤ room) : putAll room buf s =
    if buf.length + s.length ≤ room then .ok (buf ++ s) else .error .undefined := by
  induction s generalizing buf with
  | nil =>
      rw [List.length_nil, Nat.add_zero, if_pos h, List.append_nil]
      rfl
  | cons c s ih =>
      rw [putAll, List.foldlM_cons, put, List.length_cons]
      by_cases hc : buf.length < room
      · rw [if_pos hc, ok_bind, ← putAll, ih (by rw [List.length_append]; exact hc),
          List.length_append, List.append_assoc, List.length_singleton, List.singleton_append,
          Nat.add_assoc, Nat.add_comm 1]
      · rw [if_neg hc, if_neg (by omega)]
        rfl

/-- While the loop goes on, characters and conversions are written as the pieces they are. -/
structure Writes (F : Formatter) (spec : Pieces)
    (write : Piece → List UInt8 → Except Halt (List UInt8)) : Prop where
  literal : ∀ {buf}, F.goOn buf.length = true → ∀ c, put F.room buf c = write ⟨[c], true⟩ buf
  convert : ∀ {buf k args p args'}, F.goOn buf.length = true → spec k args = some (p, args') →
    F.convert k args buf = (write p buf).map (·, args')

theorem Formatter.loop_end (hgo : F.goOn buf.length = false) (fmt : List UInt8) (args : List Arg) :
    F.loop fmt args buf = .ok buf := by
  rcases fmt with - | ⟨c, - | ⟨k, fmt⟩⟩
  · rfl
  · rw [loop, if_pos hgo]
  · rw [loop, if_pos hgo]

theorem Formatter.loop_literal (hgo : F.goOn buf.length = true) (hc : c ≠ percent) :
    F.loop (c :: fmt) args buf = put F.room buf c >>= F.loop fmt args := by
  cases fmt <;> rw [loop, if_neg (by rw [hgo]; decide), if_pos hc]

theorem Formatter.loop_lone (hgo : F.goOn buf.length = true) :
    F.loop [percent] args buf = .error .undefined := by
  rw [loop, if_neg (by rw [hgo]; decide), if_neg (not_not_intro rfl)]

theorem Formatter.loop_convert (hgo : F.goOn buf.length = true) :
    F.loop (percent :: k :: fmt) args buf =
      F.convert k args buf >>= fun (buf, args) => F.loop fmt args buf := by
  rw [loop, if_neg (by rw [hgo]; decide), if_neg (not_not_intro rfl)]

theorem pieces_literal (hc : c ≠ percent) : pieces spec (c :: fmt) args =
    (pieces spec fmt args).map (Prod.map (⟨[c], true⟩ :: ·) id) := by
  rcases fmt with - | ⟨k, fmt⟩
  · rw [pieces.eq_def]
    exact if_pos hc
  · rw [pieces, if_pos hc]

theorem pieces_convert : pieces spec (percent :: k :: fmt) args =
    (spec k args).bind fun (p, args) => (pieces spec fmt args).map (Prod.map (p :: ·) id) := by
  rw [pieces, if_neg (not_not_intro rfl)]

/-- A character of the format, as a piece. -/
def Piece.literal (c : UInt8) : Piece := ⟨[c], true⟩

theorem pieces_append {w : List UInt8} (hw : percent ∉ w)
    (h : pieces spec fmt args = some (ps, lone)) :
    pieces spec (w ++ fmt) args = some (w.map Piece.literal ++ ps, lone) := by
  induction w with
  | nil => exact h
  | cons c w ih =>
      rw [List.cons_append, pieces_literal fun hc => hw (hc ▸ List.mem_cons_self),
        ih fun hmem => hw (.tail c hmem)]
      rfl

theorem width_append (ps qs : List Piece) : width (ps ++ qs) = width ps + width qs := by
  rw [width, List.map_append, List.sum_append]
  rfl

theorem width_literals (w : List UInt8) : width (w.map Piece.literal) = w.length := by
  induction w with
  | nil => rfl
  | cons c w ih =>
      rw [List.map_cons, width, List.map_cons, List.sum_cons, ← width, ih, List.length_cons]
      exact Nat.add_comm 1 _

/-- What a format begins with. -/
theorem pieces_cases (h : pieces spec fmt args = some (ps, lone)) :
    (fmt = [] ∧ ps = [] ∧ lone = false) ∨ (fmt = [percent] ∧ ps = [] ∧ lone = true) ∨
      (∃ c fmt' ps', fmt = c :: fmt' ∧ c ≠ percent ∧ ps = ⟨[c], true⟩ :: ps' ∧
        pieces spec fmt' args = some (ps', lone)) ∨
      ∃ k fmt' p args' ps', fmt = percent :: k :: fmt' ∧ spec k args = some (p, args') ∧
        ps = p :: ps' ∧ pieces spec fmt' args' = some (ps', lone) := by
  rcases fmt with - | ⟨c, fmt⟩
  · cases h
    exact .inl ⟨rfl, rfl, rfl⟩
  by_cases hc : c = percent
  · subst hc
    rcases fmt with - | ⟨k, fmt⟩
    · cases h
      exact .inr (.inl ⟨rfl, rfl, rfl⟩)
    · rw [pieces_convert, Option.bind_eq_some_iff] at h
      obtain ⟨⟨p, args'⟩, hp, h⟩ := h
      obtain ⟨⟨ps', lone'⟩, hps, he⟩ := Option.map_eq_some_iff.mp h
      cases he
      exact .inr (.inr (.inr ⟨k, fmt, p, args', ps', rfl, hp, rfl, hps⟩))
  · rw [pieces_literal hc] at h
    obtain ⟨⟨ps', lone'⟩, hps, he⟩ := Option.map_eq_some_iff.mp h
    cases he
    exact .inr (.inr (.inl ⟨c, fmt, ps', rfl, hc, rfl, hps⟩))

/-- One piece. -/
theorem Formatter.loop_cons (hw : Writes F spec wr)
    (h : pieces spec fmt args = some (p :: ps, lone)) (hgo : F.goOn buf.length = true) :
    ∃ fmt' args', pieces spec fmt' args' = some (ps, lone) ∧
      F.loop fmt args buf = wr p buf >>= F.loop fmt' args' := by
  obtain ⟨-, he, -⟩ | ⟨-, he, -⟩ | ⟨c, fmt', ps', rfl, hc, he, hps⟩ |
    ⟨k, fmt', p', args', ps', rfl, hp, he, hps⟩ := pieces_cases h <;> cases he
  · exact ⟨fmt', args, hps, by rw [loop_literal hgo hc, hw.literal hgo]⟩
  · refine ⟨fmt', args', hps, ?_⟩
    rw [loop_convert hgo, hw.convert hgo hp]
    cases wr p buf <;> rfl

theorem Formatter.loop_nil (h : pieces spec fmt args = some ([], lone))
    (hgo : F.goOn buf.length = true) :
    F.loop fmt args buf = if lone then .error .undefined else .ok buf := by
  obtain ⟨rfl, -, rfl⟩ | ⟨rfl, -, rfl⟩ | ⟨c, fmt', ps', -, -, he, -⟩ |
    ⟨k, fmt', p', args', ps', -, -, he, -⟩ := pieces_cases h
  · rfl
  · exact loop_lone hgo
  · cases he
  · cases he

theorem exists_map_ok_iff {α β : Type} {x : Except Halt α} (f : α → β) :
    (∃ t, x.map f = .ok t) ↔ ∃ t, x = .ok t := by
  cases x with
  | error e => exact iff_of_false (fun ⟨t, ht⟩ => by cases ht) fun ⟨t, ht⟩ => by cases ht
  | ok a => exact iff_of_true ⟨f a, rfl⟩ ⟨a, rfl⟩

/-- What comes out is what fits with the NUL. -/
theorem Formatter.format_ok_iff {fmt : CStr} : (∃ t, F.format fmt args = .ok t) ↔
    ∃ buf, F.loop fmt.chars args [] = .ok buf ∧ buf.length < F.room := by
  constructor
  · rintro ⟨t, h⟩
    obtain ⟨buf, hbuf, h⟩ := bind_eq_ok.mp h
    obtain ⟨buf', hput, -⟩ := bind_eq_ok.mp h
    refine ⟨buf, hbuf, ?_⟩
    by_contra hn
    rw [put, if_neg hn] at hput
    cases hput
  · rintro ⟨buf, hbuf, hlt⟩
    exact ⟨_, bind_eq_ok.mpr ⟨buf, hbuf, bind_eq_ok.mpr ⟨_, if_pos hlt, rfl⟩⟩⟩

theorem strPiece_eq_some {f : CStr → Piece} (h : strPiece f args = some (p, args')) :
    ∃ s, args = .str s :: args' ∧ p = f s := by
  rcases args with - | ⟨s | n, args⟩ <;> cases h
  exact ⟨s, rfl, rfl⟩

theorem wordPiece_eq_some {f : Word → Piece} (h : wordPiece f args = some (p, args')) :
    ∃ n, args = .word n :: args' ∧ p = f n := by
  rcases args with - | ⟨s | n, args⟩ <;> cases h
  exact ⟨n, rfl, rfl⟩

/-! ### In the user programs -/

namespace Stdio

def write (p : Piece) (buf : List UInt8) : Except Halt (List UInt8) := putAll 4096 buf p.text

theorem convert_signed (n : Word) (args : List Arg) (buf : List UInt8) :
    convert 100 (.word n :: args) buf = (putAll 4096 buf (signed n)).map (·, args) := by
  rw [convert, if_neg (by decide), if_neg (by decide), if_neg (by decide), if_neg (by decide),
    if_pos rfl, vaWord, ok_bind, signed]
  dsimp only
  split
  · rw [putAll, List.foldlM_cons]
    cases put 4096 buf 45 <;> rfl
  · rfl

theorem convert_write (h : piece k args = some (p, args')) (buf : List UInt8) :
    convert k args buf = (write p buf).map (·, args') := by
  unfold piece at h
  split at h
  · next hk =>
      cases h
      rw [hk, convert, if_pos rfl, write, ← put_eq_putAll]
  split at h
  · next hk =>
      obtain ⟨s, rfl, rfl⟩ := strPiece_eq_some h
      rw [hk, convert, if_neg (by decide), if_pos rfl]
      rfl
  split at h
  · next hk =>
      obtain ⟨n, rfl, rfl⟩ := wordPiece_eq_some h
      rw [hk, convert, if_neg (by decide), if_neg (by decide), if_pos rfl, write, ← put_eq_putAll]
      rfl
  split at h
  · next hk =>
      obtain ⟨n, rfl, rfl⟩ := wordPiece_eq_some h
      rw [hk, convert, if_neg (by decide), if_neg (by decide), if_neg (by decide), if_pos rfl]
      rfl
  split at h
  · next hk =>
      obtain ⟨n, rfl, rfl⟩ := wordPiece_eq_some h
      rw [hk, convert_signed, write]
  split at h
  · next hk =>
      obtain ⟨n, rfl, rfl⟩ := wordPiece_eq_some h
      rw [hk, convert, if_neg (by decide), if_neg (by decide), if_neg (by decide),
        if_neg (by decide), if_neg (by decide), if_pos rfl]
      rfl
  · cases h
    rw [convert, if_neg ‹_›, if_neg ‹_›, if_neg ‹_›, if_neg ‹_›, if_neg ‹_›, if_neg ‹_›, write]
    rfl

theorem writes : Writes formatter piece write where
  literal _ c := put_eq_putAll 4096 _ c
  convert _ h := convert_write h _

/-- All of the output and the NUL, and no `%` at the end of the format. -/
def Fits (fmt : CStr) (args : List Arg) : Prop :=
  ∀ ps lone, pieces piece fmt.chars args = some (ps, lone) → width ps ≤ 4095 ∧ lone = false

theorem loop_ok_iff (h : pieces piece fmt args = some (ps, lone)) (hbuf : buf.length ≤ 4096) :
    (∃ out, formatter.loop fmt args buf = .ok out ∧ out.length < 4096) ↔
      buf.length + width ps < 4096 ∧ lone = false := by
  induction ps generalizing fmt args buf with
  | nil =>
      rw [Formatter.loop_nil h rfl]
      cases lone with
      | true => simp
      | false => simp [width]
  | cons p ps ih =>
      obtain ⟨fmt', args', hps, hloop⟩ := Formatter.loop_cons writes h rfl
      have hwidth : width (p :: ps) = p.text.length + width ps := List.sum_cons
      rw [hloop, write, putAll_eq p.text hbuf, hwidth]
      by_cases hfit : buf.length + p.text.length ≤ 4096
      · rw [if_pos hfit, ok_bind, ih hps (by rwa [List.length_append]), List.length_append,
          Nat.add_assoc]
      · rw [if_neg hfit]
        refine iff_of_false (fun ⟨out, hout, _⟩ => by cases hout) fun ⟨hlt, _⟩ => ?_
        omega

theorem format_ok_iff_of_pieces {fmt : CStr} (h : pieces piece fmt.chars args = some (ps, lone))
    (out : Word) : (∃ t, format out fmt args = .ok t) ↔ out ≠ 0 ∧ width ps ≤ 4095 ∧ lone = false := by
  by_cases hout : out = 0
  · rw [format, if_pos hout]
    exact iff_of_false (fun ⟨t, ht⟩ => by cases ht) fun hne => hne.1 hout
  · rw [format, if_neg hout, Formatter.format_ok_iff, and_iff_right hout,
      show formatter.room = 4096 from rfl, loop_ok_iff h (Nat.zero_le _), List.length_nil,
      Nat.zero_add, Nat.lt_succ_iff]

theorem format_ok_iff {fmt : CStr} (h : Matching piece fmt args) (out : Word) :
    (∃ t, format out fmt args = .ok t) ↔ out ≠ 0 ∧ Fits fmt args := by
  obtain ⟨⟨ps, lone⟩, hps⟩ := Option.isSome_iff_exists.mp h
  rw [format_ok_iff_of_pieces hps]
  refine and_congr_right fun _ => ⟨fun hf ps' lone' h' => ?_, fun hf => hf ps lone hps⟩
  cases hps.symm.trans h'
  exact hf

end Stdio

/-! ### In the kernel -/

namespace Serial

def write (p : Piece) (buf : List UInt8) : Except Halt (List UInt8) :=
  if p.checked then .ok (buf ++ p.text.take (255 - buf.length)) else putAll 256 buf p.text

theorem copyStr_eq (s : List UInt8) (buf : List UInt8) :
    copyStr buf s = buf ++ s.take (255 - buf.length) := by
  induction s generalizing buf with
  | nil => simp [copyStr]
  | cons c s ih =>
      rw [copyStr]
      split
      · next hlt =>
          obtain ⟨k, hk⟩ : ∃ k, 255 - buf.length = k + 1 := ⟨254 - buf.length, by omega⟩
          rw [ih, List.length_append, List.length_singleton, hk, List.take_succ_cons,
            show 255 - (buf.length + 1) = k by omega, List.append_assoc, List.singleton_append]
      · next hle => rw [show 255 - buf.length = 0 by omega, List.take_zero, List.append_nil]

theorem put_write (h : buf.length < 255) (c : UInt8) : put 256 buf c = write ⟨[c], true⟩ buf := by
  obtain ⟨k, hk⟩ : ∃ k, 255 - buf.length = k + 1 := ⟨254 - buf.length, by omega⟩
  rw [put, if_pos (Nat.lt_succ_of_lt h), write, if_pos rfl, hk, List.take_succ_cons, List.take_nil]

theorem convert_write (hgo : buf.length < 255) (h : piece k args = some (p, args')) :
    convert k args buf = (write p buf).map (·, args') := by
  unfold piece at h
  split at h
  · next hk =>
      obtain ⟨s, rfl, rfl⟩ := strPiece_eq_some h
      rw [hk, convert, if_pos rfl, vaStr, ok_bind, write, if_pos rfl, ← copyStr_eq]
      rfl
  split at h
  · next hk =>
      obtain ⟨n, rfl, rfl⟩ := wordPiece_eq_some h
      rw [hk, convert, if_neg (by decide), if_pos rfl, ← put_write hgo]
      rfl
  split at h
  · next hk =>
      obtain ⟨n, rfl, rfl⟩ := wordPiece_eq_some h
      rw [hk, convert, if_neg (by decide), if_neg (by decide), if_pos rfl]
      rfl
  split at h
  · next hk =>
      obtain ⟨n, rfl, rfl⟩ := wordPiece_eq_some h
      rw [hk, convert, if_neg (by decide), if_neg (by decide), if_neg (by decide), if_pos rfl]
      rfl
  · cases h
    rw [convert, if_neg ‹_›, if_neg ‹_›, if_neg ‹_›, if_neg ‹_›, write, if_pos rfl, List.take_nil,
      List.append_nil]
    rfl

theorem writes : Writes formatter piece write where
  literal hgo c := put_write (of_decide_eq_true hgo) c
  convert hgo h := convert_write (of_decide_eq_true hgo) h

/-- With `n` characters in the buffer, no number begins before the last place but one and goes on
to it, and the `%` at the end of the format is not come to. -/
structure FitsFrom (n : Nat) (ps : List Piece) (lone : Bool) : Prop where
  numbers : ∀ pre p post, ps = pre ++ p :: post → p.checked = false → n + width pre < 255 →
    n + width pre + p.text.length ≤ 255
  ended : lone = true → 255 ≤ n + width ps

def Fits (fmt : CStr) (args : List Arg) : Prop :=
  ∀ ps lone, pieces piece fmt.chars args = some (ps, lone) → FitsFrom 0 ps lone

theorem fitsFrom_full (h : 255 ≤ n) : FitsFrom n ps lone :=
  ⟨fun _ _ _ _ _ hlt => absurd hlt (by omega), fun _ => by omega⟩

theorem fitsFrom_cons_iff : FitsFrom n (p :: ps) lone ↔
    (p.checked = false → n < 255 → n + p.text.length ≤ 255) ∧
      FitsFrom (n + p.text.length) ps lone := by
  have hwidth : ∀ p ps, width (p :: ps) = p.text.length + width ps := fun _ _ => List.sum_cons
  constructor
  · intro h
    refine ⟨h.numbers [] p ps rfl, fun pre q post he hq hlt => ?_, fun hl => ?_⟩
    · have := h.numbers (p :: pre) q post (by rw [he]; rfl) hq
      rw [hwidth, ← Nat.add_assoc] at this
      exact this hlt
    · have := h.ended hl
      rwa [hwidth, ← Nat.add_assoc] at this
  · rintro ⟨hp, h⟩
    refine ⟨fun pre q post he hq hlt => ?_, fun hl => ?_⟩
    · rcases pre with - | ⟨p', pre⟩
      · cases he
        exact hp hq hlt
      · cases he
        rw [hwidth, ← Nat.add_assoc] at hlt ⊢
        exact h.numbers pre q post rfl hq hlt
    · rw [hwidth, ← Nat.add_assoc]
      exact h.ended hl

/-- A full buffer: the loop is left. -/
theorem loop_full (h : 255 ≤ buf.length) (fmt : List UInt8) (args : List Arg) :
    (∃ out, formatter.loop fmt args buf = .ok out ∧ out.length < 256) ↔ buf.length = 255 := by
  rw [Formatter.loop_end (decide_eq_false (Nat.not_lt.mpr h))]
  constructor
  · rintro ⟨out, hout, hlt⟩
    cases hout
    omega
  · intro he
    exact ⟨buf, rfl, by omega⟩

theorem loop_ok_iff (h : pieces piece fmt args = some (ps, lone)) (hbuf : buf.length ≤ 255) :
    (∃ out, formatter.loop fmt args buf = .ok out ∧ out.length < 256) ↔
      FitsFrom buf.length ps lone := by
  induction ps generalizing fmt args buf with
  | nil =>
      by_cases hlt : buf.length < 255
      · rw [Formatter.loop_nil h (decide_eq_true hlt)]
        cases lone with
        | true =>
            refine iff_of_false (fun ⟨out, hout, _⟩ => by cases hout) fun hf => ?_
            have : 255 ≤ buf.length := hf.ended rfl
            omega
        | false =>
            refine iff_of_true ⟨buf, rfl, by omega⟩ ⟨fun pre p post he => ?_, fun hl => by cases hl⟩
            simp at he
      · rw [loop_full (by omega)]
        exact iff_of_true (by omega) (fitsFrom_full (by omega))
  | cons p ps ih =>
      by_cases hlt : buf.length < 255
      · obtain ⟨fmt', args', hps, hloop⟩ := Formatter.loop_cons writes h (decide_eq_true hlt)
        rw [hloop, write, fitsFrom_cons_iff]
        cases hp : p.checked with
        | true =>
            rw [if_pos rfl, ok_bind, ih hps (by rw [List.length_append, List.length_take]; omega),
              List.length_append, List.length_take]
            by_cases hfit : p.text.length ≤ 255 - buf.length
            · rw [Nat.min_eq_right hfit]
              exact (and_iff_right fun he => by cases he).symm
            · exact iff_of_true (fitsFrom_full (by omega))
                ⟨fun he => (by cases he), fitsFrom_full (by omega)⟩
        | false =>
            rw [if_neg (by decide), putAll_eq p.text (by omega)]
            by_cases hfit : buf.length + p.text.length ≤ 255
            · rw [if_pos (by omega), ok_bind, ih hps (by rwa [List.length_append]),
                List.length_append]
              exact (and_iff_right fun _ _ => hfit).symm
            · -- the last digit is behind the buffer, or the NUL is
              refine iff_of_false (fun hout => ?_) fun hf => hfit (hf.1 rfl hlt)
              split at hout
              · rw [ok_bind, loop_full (by rw [List.length_append]; omega),
                  List.length_append] at hout
                omega
              · obtain ⟨out, hout, -⟩ := hout
                cases hout
      · rw [loop_full (by omega)]
        exact iff_of_true (by omega) (fitsFrom_full (by omega))

theorem format_ok_iff {fmt : CStr} (h : Matching piece fmt args) :
    (∃ t, formatter.format fmt args = .ok t) ↔ Fits fmt args := by
  obtain ⟨⟨ps, lone⟩, hps⟩ := Option.isSome_iff_exists.mp h
  have hfits : Fits fmt args ↔ FitsFrom 0 ps lone := by
    refine ⟨fun hf => hf ps lone hps, fun hf ps' lone' h' => ?_⟩
    cases hps.symm.trans h'
    exact hf
  rw [Formatter.format_ok_iff, hfits]
  exact loop_ok_iff hps (Nat.zero_le _)

end Serial

/-! ### The four functions -/

/-- **When formatted output stays in its buffer.** -/
theorem output_fits_iff (fmt : CStr) (args : List Arg) (out : Word) :
    (Matching Serial.piece fmt args →
      ((∃ t, Serial.writef fmt args = .ok t) ↔ Serial.Fits fmt args) ∧
      ((∃ t, Serial.logf fmt args = .ok t) ↔ Serial.Fits fmt args)) ∧
    (Matching Stdio.piece fmt args →
      ((∃ t, Stdio.printf out fmt args = .ok t) ↔ out ≠ 0 ∧ Stdio.Fits fmt args) ∧
      ((∃ t, Stdio.logf out fmt args = .ok t) ↔ out ≠ 0 ∧ Stdio.Fits fmt args)) := by
  refine ⟨fun h => ⟨?_, ?_⟩, fun h => ⟨?_, ?_⟩⟩
  · exact (exists_map_ok_iff _).trans (Serial.format_ok_iff h)
  · exact (exists_map_ok_iff _).trans (Serial.format_ok_iff h)
  · exact (exists_map_ok_iff _).trans (Stdio.format_ok_iff h out)
  · exact (exists_map_ok_iff _).trans (Stdio.format_ok_iff h out)

/-! ### A short and a long output -/

/-- Output of less than 256 characters fits. -/
theorem Serial.fitsFrom_of_width (h : width ps ≤ 255) : FitsFrom 0 ps false where
  numbers := by
    rintro pre p post rfl - -
    rw [width, List.map_append, List.sum_append, List.map_cons, List.sum_cons] at h
    rw [width]
    omega
  ended hl := by cases hl

/-- `n=%u`. -/
theorem output_fits_ten : (∃ t, Serial.logf (.lit ['n', '=', '%', 'u']) [.word 10] = .ok t) ∧
    ∃ t, Stdio.printf 0x1000 (.lit ['n', '=', '%', 'u']) [.word 10] = .ok t := by
  obtain ⟨hserial, hstdio⟩ := output_fits_iff (.lit ['n', '=', '%', 'u']) [.word 10] 0x1000
  refine ⟨((hserial rfl).2).mpr fun ps lone h => ?_, ((hstdio rfl).1).mpr ⟨by decide, ?_⟩⟩
  · cases h
    exact Serial.fitsFrom_of_width (by decide)
  · intro ps lone h
    cases h
    exact ⟨by decide, rfl⟩

/-- A text of 254 characters and two digits, and the NUL is behind the buffer. -/
theorem Serial.not_fits_of_length {s : CStr} (hs : s.chars.length = 254) :
    ¬ ∃ t, logf (.lit ['%', 's', '%', 'u']) [.str s, .word 10] = .ok t := by
  have hmatch : Matching piece (.lit ['%', 's', '%', 'u']) [.str s, .word 10] := rfl
  rw [logf, exists_map_ok_iff, format_ok_iff hmatch]
  intro h
  have hnum := (h [⟨s.chars, true⟩, ⟨numeral 10 65 10, false⟩] false rfl).numbers
    [⟨s.chars, true⟩] ⟨numeral 10 65 10, false⟩ [] rfl rfl
  rw [width, List.map_cons, hs] at hnum
  exact absurd (hnum (by decide)) (by decide)

theorem letters_nulFree (n : Nat) : 0 ∉ List.replicate n (97 : UInt8) :=
  fun h => absurd (List.eq_of_mem_replicate h) (by decide)

def letters (n : Nat) : CStr := ⟨List.replicate n 97, letters_nulFree n⟩

theorem output_long :
    Matching Serial.piece (.lit ['%', 's', '%', 'u']) [.str (letters 254), .word 10] ∧
      ¬ ∃ t, Serial.logf (.lit ['%', 's', '%', 'u']) [.str (letters 254), .word 10] = .ok t :=
  ⟨rfl, Serial.not_fits_of_length List.length_replicate⟩

end RivOS
