import RivOS.Fs.BootFs

/-!
# Fs — The number in a sector's path

`/boot/sector=d` is read by two scanners, `strIsNumber` and then `stoi`.  A `+` passes the first, and
the second stops at it with 0; `stoi` wraps at 32 bits, so that a number too large for an `i32` is
turned away only where it wraps to a negative one.

* `Spells`: the integer a string of digits with an optional sign stands for.
* `denotes_iff`: when the file is of the sector that is spelled.
-/

namespace RivOS

/-- Decimal digits, at least one. -/
def Digits (s : List UInt8) : Prop := s ≠ [] ∧ ∀ c ∈ s, isdigit c = true

inductive Spells : List UInt8 → Int → Prop where
  | digits {s : List UInt8} (h : Digits s) : Spells s (decVal s)
  | plus {s : List UInt8} (h : Digits s) : Spells (43 :: s) (decVal s)
  | minus {s : List UInt8} (h : Digits s) : Spells (45 :: s) (-decVal s)

/-- The values of an `i32`. -/
def IsI32 (z : Int) : Prop := -2 ^ 31 ≤ z ∧ z < 2 ^ 31

/-! ### What a string spells -/

variable {s : List UInt8} {n : Nat} {z : Int}

theorem Digits.ne_cons {c : UInt8} (h : Digits s) (hc : isdigit c = false) : ∀ t, s ≠ c :: t := by
  rintro t rfl
  have := h.2 c (by simp)
  simp [hc] at this

theorem spells_digits_iff (h : Digits s) : Spells s z ↔ z = decVal s := by
  refine ⟨fun hz => ?_, fun hz => hz ▸ .digits h⟩
  cases hz with
  | digits _ => rfl
  | plus _ => exact absurd rfl (h.ne_cons (c := 43) rfl _)
  | minus _ => exact absurd rfl (h.ne_cons (c := 45) rfl _)

theorem spells_plus_iff (h : Digits s) : Spells (43 :: s) z ↔ z = decVal s := by
  refine ⟨fun hz => ?_, fun hz => hz ▸ .plus h⟩
  cases hz with
  | digits h' => exact absurd rfl (h'.ne_cons (c := 43) rfl _)
  | plus _ => rfl

theorem spells_minus_iff (h : Digits s) : Spells (45 :: s) z ↔ z = -decVal s := by
  refine ⟨fun hz => ?_, fun hz => hz ▸ .minus h⟩
  cases hz with
  | digits h' => exact absurd rfl (h'.ne_cons (c := 45) rfl _)
  | minus _ => rfl

theorem strIsDigit_iff_digits : strIsDigit s = true ↔ Digits s := strIsDigit_iff

/-- `strIsNumber` accepts what spells an integer. -/
theorem strIsNumber_cases (h : strIsNumber s = true) :
    Digits s ∨ (∃ t, s = 43 :: t ∧ Digits t) ∨ ∃ t, s = 45 :: t ∧ Digits t := by
  unfold strIsNumber at h
  split at h
  · exact .inr (.inr ⟨_, rfl, strIsDigit_iff_digits.mp h⟩)
  · exact .inr (.inl ⟨_, rfl, strIsDigit_iff_digits.mp h⟩)
  · exact .inl (strIsDigit_iff_digits.mp h)

theorem Spells.strIsNumber (h : Spells s z) : strIsNumber s = true := by
  cases h with
  | digits h =>
      rw [RivOS.strIsNumber.eq_3 s (h.ne_cons rfl) (h.ne_cons rfl)]
      exact strIsDigit_iff_digits.mpr h
  | plus h => exact strIsDigit_iff_digits.mpr h
  | minus h => exact strIsDigit_iff_digits.mpr h

theorem slt_zero_iff (w : Word) : w.slt 0 = true ↔ 2 ^ 31 ≤ w.toNat := by
  have := w.isLt
  rw [BitVec.slt_eq_decide, decide_eq_true_eq, show (0 : Word).toInt = 0 from rfl,
    BitVec.toInt_eq_toNat_cond]
  split <;> omega

namespace BootFileSystem

/-- `/boot/sector=`. -/
def sectorPrefix : List UInt8 :=
  ascii ['/', 'b', 'o', 'o', 't', '/', 's', 'e', 'c', 't', 'o', 'r', '=']

theorem sectorPrefix_nulFree : 0 ∉ sectorPrefix := by decide

def sectorPath (d : CStr) : CStr where
  chars := sectorPrefix ++ d.chars
  nulFree := fun h => (List.mem_append.mp h).elim sectorPrefix_nulFree d.nulFree

section Denotes

variable {σ : Type} (al : Allocator σ)

/-- What `open` makes of `/boot/sector=d`: a file that exists is of the sector that `d` spells, and
where `d` spells no `i32` there is none. -/
structure Denotes (d : CStr) (ret : Fat32.File) (flag : Bool) (s : σ) : Prop where
  sector : ∀ {f flag' s'}, «open» al ret (sectorPath d) flag s = .ok ((f, flag'), s') →
    f.exists = true → ∃ (n : Nat) (fsData : Buffer), Spells d.chars n ∧ f.fsData = some fsData ∧
      FsData.sector fsData = n
  rejects : (∀ z, IsI32 z → ¬ Spells d.chars z) → ∀ {f flag' s'},
    «open» al ret (sectorPath d) flag s = .ok ((f, flag'), s') → f.exists = false ∧ flag' = false

end Denotes

/-- Without a sign, a number too large for an `i32` wraps to a negative one; with a minus, one below
the least `i32` wraps to a negative one again; a plus stands in front of 0 only. -/
def ReadRight : List UInt8 → Prop
  | 45 :: s => strIsDigit s → decVal s = 0 ∨ (1 ≤ decVal s % 2 ^ 32 ∧ decVal s % 2 ^ 32 ≤ 2 ^ 31)
  | 43 :: s => strIsDigit s → decVal s = 0
  | s => strIsDigit s → decVal s < 2 ^ 31 ∨ 2 ^ 31 ≤ decVal s % 2 ^ 32

/-! ### When the sector is the one that is spelled -/

variable {σ : Type} {al : Allocator σ} {d : CStr} {ret : Fat32.File} {flag : Bool} {t : σ}

theorem open_sectorPath : «open» al ret (sectorPath d) flag t =
    if strIsNumber d.chars = true ∧ ¬ (stoi d.chars).slt 0 = true then
      match al.alloc FsData.sizeof t with
      | (none, _) => .error (some .undefined)
      | (some fsData, t) =>
          .ok ((⟨some (FsData.put fsData (stoi d.chars)), 512, true⟩, flag), t)
    else .ok (({ ret with «exists» := false }, false), t) := by
  have hnumber : number (sectorPath d) = d.chars := rfl
  have hbegins : strBeginsWith ((sectorPath d).chars.drop 6)
      (ascii ['s', 'e', 'c', 't', 'o', 'r', '=']) = true := by
    simp [sectorPath, sectorPrefix, ascii, strBeginsWith]
  simp only [«open», hnumber, hbegins]
  cases strIsNumber d.chars <;> cases (stoi d.chars).slt 0 <;> rfl

/-- What is accepted, where there is a block for it. -/
theorem denotes_iff_stoi : Denotes al d ret flag t ↔
    (al.HasRoom FsData.sizeof t → strIsNumber d.chars = true → ¬ (stoi d.chars).slt 0 = true →
      Spells d.chars (stoi d.chars).toNat) := by
  constructor
  · intro h hroom hnum hpos
    obtain ⟨fsData, t', ha⟩ := hroom.buffer
    have hopen : «open» al ret (sectorPath d) flag t =
        .ok ((⟨some (FsData.put fsData (stoi d.chars)), 512, true⟩, flag), t') := by
      rw [open_sectorPath, if_pos ⟨hnum, hpos⟩, ha]
    obtain ⟨n, fsData', hn, hf, rfl⟩ := h.sector hopen rfl
    obtain rfl := Option.some.inj hf
    rwa [sector_put] at hn
  · intro h
    refine ⟨fun {f flag' t'} hopen hexists => ?_, fun hnone {f flag' t'} hopen => ?_⟩
    all_goals
      rw [open_sectorPath] at hopen
      split at hopen
    · next hacc =>
        split at hopen
        · cases hopen
        · next ha =>
            cases hopen
            have hroom : al.HasRoom FsData.sizeof t := by rw [Allocator.HasRoom, ha]; rfl
            exact ⟨_, _, h hroom hacc.1 hacc.2, rfl, sector_put ..⟩
    · cases hopen
      cases hexists
    · next hacc =>
        split at hopen
        · cases hopen
        · next ha =>
            have hroom : al.HasRoom FsData.sizeof t := by rw [Allocator.HasRoom, ha]; rfl
            have hlt := mt (slt_zero_iff _).mpr hacc.2
            exact absurd (h hroom hacc.1 hacc.2) (hnone _ ⟨by omega, by omega⟩)
    · cases hopen
      exact ⟨rfl, rfl⟩

theorem readRight_digits_iff (h : Digits s) : ReadRight s ↔
    (¬ (stoi s).slt 0 = true → Spells s (stoi s).toNat) := by
  rw [ReadRight.eq_3 s (h.ne_cons rfl) (h.ne_cons rfl), strIsDigit_iff_digits, forall_prop_of_true h,
    slt_zero_iff, stoi_digits h.2, BitVec.toNat_ofNat, spells_digits_iff h]
  omega

theorem readRight_plus_iff (h : Digits s) : ReadRight (43 :: s) ↔
    (¬ (stoi (43 :: s)).slt 0 = true → Spells (43 :: s) (stoi (43 :: s)).toNat) := by
  rw [ReadRight, strIsDigit_iff_digits, forall_prop_of_true h, slt_zero_iff, stoi_plus,
    show (0 : Word).toNat = 0 from rfl, spells_plus_iff h]
  omega

theorem readRight_minus_iff (h : Digits s) : ReadRight (45 :: s) ↔
    (¬ (stoi (45 :: s)).slt 0 = true → Spells (45 :: s) (stoi (45 :: s)).toNat) := by
  rw [ReadRight, strIsDigit_iff_digits, forall_prop_of_true h, slt_zero_iff, stoi_minus h.2,
    BitVec.toNat_neg, BitVec.toNat_ofNat, spells_minus_iff h]
  omega

theorem readRight_iff_stoi : ReadRight s ↔
    (strIsNumber s = true → ¬ (stoi s).slt 0 = true → Spells s (stoi s).toNat) := by
  by_cases hnum : strIsNumber s = true
  · rw [forall_prop_of_true hnum]
    obtain h | ⟨t, rfl, h⟩ | ⟨t, rfl, h⟩ := strIsNumber_cases hnum
    · exact readRight_digits_iff h
    · exact readRight_plus_iff h
    · exact readRight_minus_iff h
  · refine iff_of_true ?_ fun h => absurd h hnum
    unfold strIsNumber at hnum
    split at hnum
    · exact fun h => absurd h hnum
    · exact fun h => absurd h hnum
    · next hminus hplus =>
        rw [ReadRight.eq_3 _ hminus hplus]
        exact fun h => absurd h hnum

end BootFileSystem

end RivOS
