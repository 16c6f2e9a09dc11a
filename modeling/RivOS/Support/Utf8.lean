import Mathlib.Data.List.Basic

/-!
# Support — UTF-8

Strings as lists of characters, and their bytes.  Bytes that are not well-formed are decoded with
replacement: every longest start of a character that the next byte breaks off, and every byte that
starts none, is read as U+FFFD.

* `decodeReplace_utf8`: what is well-formed is read back; encoding is therefore injective
  (`utf8_inj`).
* `splitOn_utf8`: an ASCII separator splits the bytes where it splits the characters.
-/

namespace RivOS

variable {c sep : Char} {s t : List Char} {b : UInt8} {bs : List UInt8}

def utf8 (s : List Char) : List UInt8 := s.flatMap String.utf8EncodeChar

/-! ### Decoding -/

/-- The bytes that may follow the first byte of a longer character, and how many follow. -/
def leadByte (b : UInt8) : Option (UInt8 × UInt8 × Nat) :=
  if 0xC2 ≤ b ∧ b ≤ 0xDF then some (0x80, 0xBF, 1)
  else if b = 0xE0 then some (0xA0, 0xBF, 2)
  else if b = 0xED then some (0x80, 0x9F, 2)
  else if 0xE1 ≤ b ∧ b ≤ 0xEF then some (0x80, 0xBF, 2)
  else if b = 0xF0 then some (0x90, 0xBF, 3)
  else if 0xF1 ≤ b ∧ b ≤ 0xF3 then some (0x80, 0xBF, 3)
  else if b = 0xF4 then some (0x80, 0x8F, 3)
  else none

/-- The length of what is replaced where no character can be decoded. -/
def illFormed : List UInt8 → Nat
  | [] => 0
  | b :: bs =>
      match leadByte b, bs with
      | some (lo, hi, n), c :: cs =>
          if lo ≤ c ∧ c ≤ hi then
            2 + ((cs.take (n - 1)).takeWhile fun c => 0x80 ≤ c ∧ c ≤ 0xBF).length
          else 1
      | _, _ => 1

theorem illFormed_pos : 0 < illFormed (b :: bs) := by
  simp only [illFormed]
  split
  · split
    · exact Nat.add_pos_left Nat.zero_lt_two _
    · exact Nat.zero_lt_one
  · exact Nat.zero_lt_one

def decodeReplace (bs : List UInt8) : List Char :=
  match bs with
  | [] => []
  | b :: rest =>
      match (b :: rest).toByteArray.utf8DecodeChar? 0 with
      | some c => c :: decodeReplace ((b :: rest).drop c.utf8Size)
      | none => '\uFFFD' :: decodeReplace ((b :: rest).drop (illFormed (b :: rest)))
termination_by bs.length
decreasing_by
  · have := c.utf8Size_pos
    simp only [List.length_drop, List.length_cons]
    omega
  · have : 0 < illFormed (b :: rest) := illFormed_pos
    simp only [List.length_drop, List.length_cons]
    omega

theorem decodeReplace_encode (c : Char) (bs : List UInt8) :
    decodeReplace (String.utf8EncodeChar c ++ bs) = c :: decodeReplace bs := by
  have hdec : (String.utf8EncodeChar c ++ bs).toByteArray.utf8DecodeChar? 0 = some c := by
    rw [List.toByteArray_append]
    exact ByteArray.utf8DecodeChar?_utf8EncodeChar_append
  have hdrop : (String.utf8EncodeChar c ++ bs).drop c.utf8Size = bs := by
    rw [← String.length_utf8EncodeChar, List.drop_left]
  obtain ⟨b, rest, hb⟩ := List.exists_cons_of_ne_nil (l := String.utf8EncodeChar c ++ bs)
    (by simp [String.utf8EncodeChar_ne_nil])
  rw [hb] at hdec hdrop ⊢
  rw [decodeReplace, hdec]
  simp only [hdrop]

/-- **What is well-formed is read back.** -/
theorem decodeReplace_utf8 (s : List Char) : decodeReplace (utf8 s) = s := by
  induction s with
  | nil => simp [utf8, decodeReplace]
  | cons c s ih =>
      rw [utf8, List.flatMap_cons, decodeReplace_encode]
      exact congrArg _ ih

theorem utf8_inj (h : utf8 s = utf8 t) : s = t := by
  rw [← decodeReplace_utf8 s, h, decodeReplace_utf8]

/-! ### Separators -/

theorem utf8_cons : utf8 (c :: s) = String.utf8EncodeChar c ++ utf8 s := List.flatMap_cons

theorem utf8_eq_nil_iff : utf8 s = [] ↔ s = [] := by
  constructor
  · exact fun h => utf8_inj h
  · rintro rfl
    rfl

theorem utf8EncodeChar_ascii (h : c.toNat < 128) :
    String.utf8EncodeChar c = [UInt8.ofNat c.toNat] := by
  have hc : c.toNat ≤ 127 := by omega
  simp only [String.utf8EncodeChar, Char.toNat_val, hc, if_true]

/-- The bytes of a longer character are no ASCII. -/
theorem le_of_mem_utf8EncodeChar (h : 128 ≤ c.toNat) (hb : b ∈ String.utf8EncodeChar c) :
    128 ≤ b.toNat := by
  have hc : ¬ c.toNat ≤ 127 := by omega
  simp only [String.utf8EncodeChar, Char.toNat_val, hc, if_false] at hb
  split at hb
  · simp only [List.mem_cons, List.not_mem_nil, or_false] at hb
    rcases hb with rfl | rfl <;> rw [UInt8.toNat_ofNat'] <;> omega
  · split at hb
    · simp only [List.mem_cons, List.not_mem_nil, or_false] at hb
      rcases hb with rfl | rfl | rfl <;> rw [UInt8.toNat_ofNat'] <;> omega
    · simp only [List.mem_cons, List.not_mem_nil, or_false] at hb
      rcases hb with rfl | rfl | rfl | rfl <;> rw [UInt8.toNat_ofNat'] <;> omega

/-- An ASCII character is no byte of another one. -/
theorem ascii_not_mem (hsep : sep.toNat < 128) (hne : c ≠ sep) :
    UInt8.ofNat sep.toNat ∉ String.utf8EncodeChar c := by
  intro hb
  have hval : (UInt8.ofNat sep.toNat).toNat = sep.toNat := by
    rw [UInt8.toNat_ofNat']
    omega
  rcases Nat.lt_or_ge c.toNat 128 with h | h
  · rw [utf8EncodeChar_ascii h, List.mem_singleton] at hb
    have hval' : (UInt8.ofNat c.toNat).toNat = c.toNat := by
      rw [UInt8.toNat_ofNat']
      omega
    have he : sep.toNat = c.toNat := by rw [← hval, hb, hval']
    exact hne (Char.toNat_inj.mp he).symm
  · have := le_of_mem_utf8EncodeChar h hb
    omega

theorem splitOn_append {α : Type} [BEq α] [LawfulBEq α] {a : α} {xs : List α} (h : a ∉ xs)
    (ys : List α) : (xs ++ ys).splitOn a = (ys.splitOn a).modifyHead (xs ++ ·) := by
  induction xs with
  | nil =>
      obtain ⟨z, zs, hz⟩ := List.exists_cons_of_ne_nil (List.splitOn_ne_nil a ys)
      simp [hz]
  | cons x xs ih =>
      obtain ⟨hx, hxs⟩ := List.ne_and_not_mem_of_not_mem_cons h
      obtain ⟨z, zs, hz⟩ := List.exists_cons_of_ne_nil (List.splitOn_ne_nil a ys)
      rw [List.cons_append, List.splitOn_cons_eq_if_modifyHead, ih hxs, hz, if_neg]
      · rfl
      · simpa using Ne.symm hx

/-- **An ASCII separator splits the bytes where it splits the characters.** -/
theorem splitOn_utf8 (hsep : sep.toNat < 128) (s : List Char) :
    (utf8 s).splitOn (UInt8.ofNat sep.toNat) = (s.splitOn sep).map utf8 := by
  induction s with
  | nil => simp [utf8]
  | cons c s ih =>
      obtain ⟨z, zs, hz⟩ := List.exists_cons_of_ne_nil (List.splitOn_ne_nil sep s)
      rw [utf8_cons, List.splitOn_cons_eq_if_modifyHead]
      by_cases hc : c = sep
      · subst hc
        rw [utf8EncodeChar_ascii hsep, List.singleton_append, List.splitOn_cons_eq_if_modifyHead,
          if_pos (by simp), if_pos (by simp), ih]
        rfl
      · rw [splitOn_append (ascii_not_mem hsep hc), ih, hz, if_neg (by simpa using hc)]
        simp [utf8_cons]

end RivOS
