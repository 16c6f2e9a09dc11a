import RivOS.Gen.Alpha
import RivOS.Gen.Err
import RivOS.Support.Loops

/-!
# Lib — Numbers as text

What `fromi` and `fromu` (`lib/str.hpp`) append, one character after the other, and what `stoi` and
`stou` (`Gen.Alpha`) make of it.  Both write the digits into a buffer, the last one first, and
append them from behind.

* `digitBuffer_eq`: the digits in the buffer, at most ten.
* `Canonical`: the text of an integer, said without the loop.
* `printed_iff`: `fromi` and `stoi` are inverse to each other but at `-2 ^ 31`.
-/

namespace RivOS.Lib

/-- A turn of `while (n > 0)`: the number, and the buffer up to `index`. -/
def digitTurn (s : Int × List UInt8) : Except Halt ((Int × List UInt8) ⊕ List UInt8) :=
  .ok (if 0 < s.1 then .inl (s.1.tdiv 10, s.2 ++ [UInt8.ofNat (48 + (s.1.tmod 10).toNat)])
    else .inr s.2)

def digitBuffer (n : Int) : Except Halt (List UInt8) :=
  loop digitTurn .undefined (fun s => s.1.toNat) (n, [])

/-- What `fromi` appends.  The sign is changed in 32 bits. -/
def fromiText (n : Word) : Except Halt (List UInt8) :=
  if n = 0 then .ok [48]
  else if n.toInt < 0 then (digitBuffer (-n).toInt).map fun buffer => 45 :: buffer.reverse
  else (digitBuffer n.toInt).map List.reverse

/-- What `fromu` appends. -/
def fromuText (n : Word) : Except Halt (List UInt8) :=
  if n = 0 then .ok [48] else (digitBuffer n.toNat).map List.reverse

variable {n : Nat} {s buffer : List UInt8} {w : Word}

/-! ### The loop -/

theorem digitTurn_of_pos (hn : 0 < n) (buffer : List UInt8) : digitTurn ((n : Int), buffer) =
    .ok (.inl (((n / 10 : Nat) : Int), buffer ++ [UInt8.ofNat (48 + n % 10)])) := by
  have hmod : ((n : Int).tmod 10).toNat = n % 10 := by
    rw [Int.tmod_eq_emod_of_nonneg (Int.natCast_nonneg n)]
    omega
  rw [digitTurn, if_pos (Int.natCast_pos.mpr hn), hmod]
  rfl

theorem digitTurn_shrinks : Shrinks digitTurn fun s => s.1.toNat := by
  rintro ⟨z, buffer⟩ t h
  by_cases hz : 0 < z
  · obtain ⟨n, rfl⟩ := Int.eq_ofNat_of_zero_le (Int.le_of_lt hz)
    rw [digitTurn_of_pos (Int.natCast_pos.mp hz)] at h
    cases h
    dsimp only
    omega
  · rw [digitTurn, if_neg hz] at h
    cases h

/-- The digits of `n`, the last one first. -/
theorem loop_digitTurn (n : Nat) (buffer : List UInt8) :
    loop digitTurn .undefined (fun s => s.1.toNat) ((n : Int), buffer) =
      .ok (buffer ++ (Nat.digits 10 n).map fun d => UInt8.ofNat (48 + d)) := by
  induction n using Nat.strongRecOn generalizing buffer with
  | ind n ih =>
      rcases Nat.eq_zero_or_pos n with rfl | hn
      · have hend : digitTurn (((0 : Nat) : Int), buffer) = .ok (.inr buffer) :=
          congrArg Except.ok (if_neg (lt_irrefl 0))
        rw [loop_leave hend, Nat.digits_zero, List.map_nil, List.append_nil]
      · rw [loop_turn digitTurn_shrinks (digitTurn_of_pos hn buffer), ih _ (by omega),
          Nat.digits_def' (by decide) hn, List.map_cons, List.append_assoc]
        rfl

/-- **The buffer.** -/
theorem digitBuffer_eq (n : Nat) :
    digitBuffer n = .ok ((Nat.digits 10 n).map fun d => UInt8.ofNat (48 + d)) :=
  loop_digitTurn n []

/-- A 32-bit number has at most ten digits, and the buffer room for twelve or eleven. -/
theorem length_digitBuffer (hn : n < 2 ^ 32) (h : digitBuffer n = .ok buffer) :
    buffer.length ≤ 10 := by
  rw [digitBuffer_eq] at h
  rw [← Except.ok.inj h, List.length_map]
  exact (Nat.digits_length_le_iff (by decide) n).mpr (by omega)

theorem digitBuffer_reverse (hn : n ≠ 0) :
    (digitBuffer n).map List.reverse = .ok (decimal n) := by
  rw [digitBuffer_eq, decimal, if_neg hn, List.map_reverse]
  rfl

/-! ### The text of an integer -/

/-- A sign where it is negative, and digits without a zero in front. -/
def Canonical (z : Int) (s : List UInt8) : Prop :=
  ∃ ds, s = (if z < 0 then 45 :: ds else ds) ∧ (∀ c ∈ ds, isdigit c = true) ∧
    decVal ds = z.natAbs ∧ (ds = [48] ∨ (ds ≠ [] ∧ ds.head? ≠ some 48))

/-- The last of the digits in the buffer is not 0. -/
theorem decimal_head (hn : n ≠ 0) : (decimal n).head? ≠ some 48 := by
  intro hhead
  have hlast := List.getLast?_eq_some_getLast (Nat.digits_ne_nil_iff_ne_zero (b := 10) |>.mpr hn)
  rw [decimal, if_neg hn, List.head?_map, List.head?_reverse, hlast] at hhead
  have hzero := congrArg UInt8.toNat (Option.some.inj hhead)
  rw [toNat_digit (Nat.digits_lt_base (by decide) (List.getLast_mem _))] at hzero
  exact Nat.getLast_digit_ne_zero 10 hn (Nat.add_eq_left.mp hzero)

theorem canonical_decimal {z : Int} (hz : z ≠ 0) :
    Canonical z (if z < 0 then 45 :: decimal z.natAbs else decimal z.natAbs) :=
  ⟨decimal z.natAbs, rfl, decimal_isdigit _, decVal_decimal _,
    .inr ⟨decimal_ne_nil _, decimal_head (Int.natAbs_ne_zero.mpr hz)⟩⟩

theorem canonical_zero : Canonical 0 [48] :=
  ⟨[48], rfl, List.forall_mem_singleton.mpr rfl, rfl, .inl rfl⟩

/-! ### `fromi` and `stoi` -/

/-- What `fromi` writes is the number in decimal, and `stoi` reads it back. -/
def FromiInverted (n : Word) : Prop :=
  ∃ s, fromiText n = .ok s ∧ Canonical n.toInt s ∧ stoi s = n

/-- What `fromu` writes is the number in decimal, and `stou` reads it back. -/
def FromuInverted (n : Word) : Prop :=
  ∃ s, fromuText n = .ok s ∧ Canonical n.toNat s ∧ stou s = n

theorem fromiText_pos (hw : 0 < w.toInt) : fromiText w = .ok (decimal w.toInt.natAbs) := by
  have hne : w ≠ 0 := by
    rintro rfl
    exact absurd hw (by decide)
  have hcast : w.toInt = ((w.toInt.natAbs : Nat) : Int) := by omega
  rw [fromiText, if_neg hne, if_neg (by omega), hcast, digitBuffer_reverse (by omega),
    Int.natAbs_natCast]

theorem fromiText_neg (hw : w.toInt < 0) (hmin : w ≠ BitVec.intMin 32) :
    fromiText w = .ok (45 :: decimal w.toInt.natAbs) := by
  have hne : w ≠ 0 := by
    rintro rfl
    exact absurd hw (by decide)
  have hneg : (-w).toInt = ((w.toInt.natAbs : Nat) : Int) := by
    rw [BitVec.toInt_neg_of_ne_intMin hmin]
    omega
  have hrev := digitBuffer_reverse (n := w.toInt.natAbs) (by omega)
  obtain ⟨buffer, hbuffer, hrev⟩ := map_eq_ok.mp hrev
  rw [fromiText, if_neg hne, if_pos hw, hneg, hbuffer, ← hrev]
  rfl

/-- `-n` is negative still, and there are no digits. -/
theorem fromiText_intMin : fromiText (BitVec.intMin 32) = .ok [45] := by decide

/-- **`stoi` reads back** what `fromi` writes. -/
theorem fromi_inverted (hmin : w ≠ BitVec.intMin 32) : FromiInverted w := by
  rcases Int.lt_trichotomy w.toInt 0 with hw | hw | hw
  · refine ⟨_, fromiText_neg hw hmin, ?_, ?_⟩
    · have hcanon := canonical_decimal (Int.ne_of_lt hw)
      rwa [if_pos hw] at hcanon
    · have hcast : -((w.toInt.natAbs : Nat) : Int) = w.toInt := by omega
      rw [stoi_minus (decimal_isdigit _), decVal_decimal, ← BitVec.ofInt_natCast,
        ← BitVec.ofInt_neg, hcast, BitVec.ofInt_toInt]
  · obtain rfl : w = 0 := BitVec.eq_of_toInt_eq hw
    exact ⟨[48], rfl, canonical_zero, by decide⟩
  · refine ⟨_, fromiText_pos hw, ?_, ?_⟩
    · have hcanon := canonical_decimal (Int.ne_of_gt hw)
      rwa [if_neg (by omega)] at hcanon
    · have hcast : ((w.toInt.natAbs : Nat) : Int) = w.toInt := by omega
      rw [stoi_digits (decimal_isdigit _), decVal_decimal, ← BitVec.ofInt_natCast, hcast,
        BitVec.ofInt_toInt]

theorem not_fromi_inverted : ¬ FromiInverted (BitVec.intMin 32) := by
  rintro ⟨s, hs, -, hback⟩
  rw [fromiText_intMin] at hs
  cases hs
  revert hback
  decide

/-- **`stou` reads back** what `fromu` writes. -/
theorem fromu_inverted (w : Word) : FromuInverted w := by
  by_cases hw : w = 0
  · subst hw
    exact ⟨[48], rfl, canonical_zero, by decide⟩
  · have hne : w.toNat ≠ 0 := fun h => hw (BitVec.eq_of_toNat_eq h)
    have hcanon := canonical_decimal (z := w.toNat) (Int.natCast_ne_zero.mpr hne)
    rw [if_neg (by omega), Int.natAbs_natCast] at hcanon
    refine ⟨decimal w.toNat, ?_, hcanon, ?_⟩
    · rw [fromuText, if_neg hw, digitBuffer_reverse hne]
    · rw [stou_digits (decimal_isdigit _), decVal_decimal, BitVec.ofNat_toNat, BitVec.setWidth_eq]

/-- **Printing and parsing** are inverse to each other but for `-2 ^ 31`. -/
theorem printed_iff (n : Word) :
    (FromiInverted n ↔ n ≠ BitVec.intMin 32) ∧ FromuInverted n := by
  refine ⟨⟨?_, fromi_inverted⟩, fromu_inverted n⟩
  rintro h rfl
  exact not_fromi_inverted h

/-- `fromi(-2 ^ 31)` is `-`, which `stoi` takes for 0. -/
theorem not_printed : ¬ ∀ n : Word, FromiInverted n ∧ FromuInverted n :=
  fun h => not_fromi_inverted (h (BitVec.intMin 32)).1

end RivOS.Lib
