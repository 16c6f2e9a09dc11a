import Mathlib.Algebra.Order.BigOperators.Group.List
import Mathlib.Data.List.TakeWhile
import Mathlib.Data.Nat.Digits.Lemmas
import RivOS.Gen.Format

/-!
# Gen — Lines of the log

Formats of the kernel as what they are made of: text, and conversions with their arguments.

* `logf_line`: a line that is not too long goes out as it is meant.
* `length_numeral_le`: a word has eight digits at most.
-/

namespace RivOS

namespace Serial

inductive Seg where
  | lit (w : List UInt8)
  | str (s : CStr)
  | hex (n : Word)

namespace Seg

def fmt : Seg → List UInt8
  | lit w => w
  | str _ => [percent, 115]
  | hex _ => [percent, 120]

def args : Seg → List Arg
  | lit _ => []
  | str s => [.str s]
  | hex n => [.word n]

def text : Seg → List UInt8
  | lit w => w
  | str s => s.chars
  | hex n => numeral 16 65 n

/-- What the loop makes of it. -/
def pieces : Seg → List Piece
  | lit w => w.map Piece.literal
  | str s => [⟨s.chars, true⟩]
  | hex n => [⟨numeral 16 65 n, false⟩]

/-- Its text has no conversions, and no NUL. -/
def plain : Seg → Bool
  | lit w => !w.contains percent && !w.contains 0
  | _ => true

/-- The most its output takes. -/
def size : Seg → Nat
  | lit w => w.length
  | str s => s.chars.length
  | hex _ => 8

theorem plain_lit {w : List UInt8} (h : (lit w).plain = true) : percent ∉ w ∧ 0 ∉ w := by
  simpa [plain] using h

end Seg

/-- A line of the log. -/
def line (segs : List Seg) : List UInt8 :=
  ascii ['[', 'L', 'O', 'G', ']', ':', ' '] ++ segs.flatMap Seg.text ++ ascii ['\n']

variable {segs : List Seg} {ps : List Piece} {fmt : List UInt8} {args : List Arg}
  {buf : List UInt8}

theorem pieces_cons {k : UInt8} {args' : List Arg} {p : Piece} (hp : piece k args = some (p, args'))
    (h : pieces piece fmt args' = some (ps, false)) :
    pieces piece (percent :: k :: fmt) args = some (p :: ps, false) := by
  rw [pieces_convert, hp, Option.bind_some]
  dsimp only
  rw [h]
  rfl

theorem pieces_segs (h : segs.all Seg.plain = true) :
    pieces piece (segs.flatMap Seg.fmt) (segs.flatMap Seg.args) =
      some (segs.flatMap Seg.pieces, false) := by
  induction segs with
  | nil => rfl
  | cons seg segs ih =>
      rw [List.all_cons, Bool.and_eq_true] at h
      have ih := ih h.2
      cases seg with
      | lit w => exact pieces_append (Seg.plain_lit h.1).1 ih
      | str s => exact pieces_cons rfl ih
      | hex n => exact pieces_cons rfl ih

theorem text_pieces (segs : List Seg) :
    (segs.flatMap Seg.pieces).flatMap Piece.text = segs.flatMap Seg.text := by
  induction segs with
  | nil => rfl
  | cons seg segs ih =>
      rw [List.flatMap_cons, List.flatMap_append, ih, List.flatMap_cons]
      congr 1
      cases seg with
      | lit w =>
          show (w.map Piece.literal).flatMap Piece.text = w
          rw [List.flatMap_map]
          exact List.flatMap_singleton' w
      | str s => exact List.append_nil _
      | hex n => exact List.append_nil _

theorem length_text (ps : List Piece) : (ps.flatMap Piece.text).length = width ps :=
  List.length_flatMap

/-- Pieces that have room are written as they are. -/
theorem loop_eq (h : pieces piece fmt args = some (ps, false)) (hlen : buf.length + width ps ≤ 255) :
    formatter.loop fmt args buf = .ok (buf ++ ps.flatMap Piece.text) := by
  induction ps generalizing fmt args buf with
  | nil =>
      rw [List.flatMap_nil, List.append_nil]
      by_cases hlt : buf.length < 255
      · exact Formatter.loop_nil h (decide_eq_true hlt)
      · exact Formatter.loop_end (decide_eq_false hlt) fmt args
  | cons p ps ih =>
      have hwidth : width (p :: ps) = p.text.length + width ps := List.sum_cons
      rw [hwidth] at hlen
      by_cases hlt : buf.length < 255
      · obtain ⟨fmt', args', hps, hloop⟩ := Formatter.loop_cons writes h (decide_eq_true hlt)
        have hwrite : write p buf = .ok (buf ++ p.text) := by
          rw [write]
          split
          · rw [List.take_of_length_le (by omega)]
          · rw [putAll_eq _ (by omega), if_pos (by omega)]
        rw [hloop, hwrite, ok_bind, ih hps (by rw [List.length_append]; omega), List.flatMap_cons,
          List.append_assoc]
      · -- the buffer is full, and what is left is empty
        have hnil : (p :: ps).flatMap Piece.text = [] :=
          List.eq_nil_of_length_eq_zero (by rw [length_text, hwidth]; omega)
        rw [hnil, List.append_nil]
        exact Formatter.loop_end (decide_eq_false hlt) fmt args

/-! ### Characters -/

theorem digitChar_ne_zero {d : Nat} (h : d < 16) : digitChar 65 d ≠ 0 := by
  revert d
  decide

theorem length_numeral_le (n : Word) : (numeral 16 65 n).length ≤ 8 := by
  rw [numeral]
  split
  · decide
  · rw [List.length_map, List.length_reverse]
    exact (Nat.digits_length_le_iff (by decide) _).mpr n.isLt

theorem nulFree_numeral (n : Word) : 0 ∉ numeral 16 65 n := by
  rw [numeral]
  split
  · decide
  · intro hmem
    obtain ⟨d, hd, hzero⟩ := List.mem_map.mp hmem
    exact digitChar_ne_zero (Nat.digits_lt_base (by decide) (List.mem_reverse.mp hd)) hzero

theorem nulFree_text {seg : Seg} (h : seg.plain = true) : 0 ∉ seg.text := by
  cases seg with
  | lit w => exact (Seg.plain_lit h).2
  | str s => exact s.nulFree
  | hex n => exact nulFree_numeral n

theorem length_text_le (segs : List Seg) :
    (segs.flatMap Seg.text).length ≤ (segs.map Seg.size).sum := by
  rw [List.length_flatMap]
  refine List.sum_le_sum fun seg _ => ?_
  cases seg with
  | lit w => exact Nat.le_refl _
  | str s => exact Nat.le_refl _
  | hex n => exact length_numeral_le n

/-- A line that fits goes out as it is meant. -/
theorem logf_line {fmt : CStr} (hfmt : fmt.chars = segs.flatMap Seg.fmt)
    (hargs : args = segs.flatMap Seg.args) (hplain : segs.all Seg.plain = true)
    (hsize : (segs.map Seg.size).sum ≤ 255) : logf fmt args = .ok (line segs) := by
  have hlen := (length_text_le segs).trans hsize
  have hpieces := pieces_segs hplain
  rw [← hfmt, ← hargs] at hpieces
  have hwidth : width (segs.flatMap Seg.pieces) = (segs.flatMap Seg.text).length := by
    rw [← length_text, text_pieces]
  have hloop : formatter.loop fmt.chars args [] = .ok (segs.flatMap Seg.text) := by
    rw [loop_eq hpieces (by rw [hwidth, List.length_nil]; omega), text_pieces, List.nil_append]
  have hnul : ∀ c ∈ segs.flatMap Seg.text, decide (c ≠ 0) = true := by
    intro c hc
    obtain ⟨seg, hseg, hc⟩ := List.mem_flatMap.mp hc
    exact decide_eq_true fun hzero => nulFree_text (List.all_eq_true.mp hplain seg hseg) (hzero ▸ hc)
  have hput : put 256 (segs.flatMap Seg.text) 0 = .ok (segs.flatMap Seg.text ++ [0]) :=
    if_pos (by omega)
  rw [logf, Formatter.format, hloop, ok_bind]
  show ((put 256 (segs.flatMap Seg.text) 0 >>= fun buf => .ok (CStr.ofBuffer buf)).map _) = _
  rw [hput, ok_bind]
  have hchars : (CStr.ofBuffer (segs.flatMap Seg.text ++ [0])).chars = segs.flatMap Seg.text :=
    (List.takeWhile_append_of_pos hnul).trans (List.append_nil _)
  show Except.ok (_ ++ (CStr.ofBuffer _).chars ++ _) = _
  rw [hchars]
  rfl

/-- A text alone. -/
theorem logf_text {cs : List Char} (hnul : 0 ∉ ascii cs) (h : percent ∉ ascii cs)
    (hsize : (ascii cs).length ≤ 255) : logf (.lit cs hnul) [] = .ok (line [.lit (ascii cs)]) := by
  refine logf_line (List.append_nil _).symm rfl ?_ hsize
  rw [List.all_cons, List.all_nil, Bool.and_true, Seg.plain]
  simpa using ⟨h, hnul⟩

end Serial

end RivOS
