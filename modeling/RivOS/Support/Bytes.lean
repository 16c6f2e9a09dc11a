import Mathlib.Algebra.Group.Nat.Defs
import Mathlib.Data.List.Basic

/-!
# Support — Bytes

Little-endian numbers as lists of bytes, and where a list of bytes lies in a longer one.

* `ofLE_toLE`: the `k` bytes of a number are read back modulo `256 ^ k`.
* `At img off bs`: `bs` lies in `img` at `off`.  It splits at every place (`at_append_iff`) and
  survives growth of the image (`At.mono`) and a change in front of it (`At.replace`).
* `Loaded mem base img`: an image in a memory not all of which may be read; what lies in the image
  is then what a reader finds (`Loaded.peek`, `Loaded.peekLE`, `Loaded.peekEq`).
-/

namespace RivOS

variable {k v off : Nat} {bs cs img img' : List UInt8}

/-! ### Little-endian numbers -/

/-- The low `k` bytes of `v`, least significant first. -/
def toLE : Nat → Nat → List UInt8
  | 0, _ => []
  | k + 1, v => UInt8.ofNat v :: toLE k (v / 256)

def ofLE : List UInt8 → Nat
  | [] => 0
  | b :: bs => b.toNat + 256 * ofLE bs

@[simp] theorem length_toLE (k v : Nat) : (toLE k v).length = k := by
  induction k generalizing v with
  | zero => rfl
  | succ k ih => simp [toLE, ih]

/-- Only the low bytes count. -/
theorem toLE_mod (k v : Nat) : toLE k (v % 256 ^ k) = toLE k v := by
  induction k generalizing v with
  | zero => rfl
  | succ k ih =>
      have hlow : UInt8.ofNat (v % 256 ^ (k + 1)) = UInt8.ofNat v := by
        rw [← UInt8.toNat_inj, UInt8.toNat_ofNat', UInt8.toNat_ofNat',
          Nat.mod_mod_of_dvd _ ⟨256 ^ k, Nat.pow_succ'⟩]
      have hhigh : v % 256 ^ (k + 1) / 256 = v / 256 % 256 ^ k := by
        rw [Nat.pow_succ', Nat.mod_mul_right_div_self]
      rw [toLE, toLE, hlow, hhigh, ih]

theorem ofLE_toLE (k v : Nat) : ofLE (toLE k v) = v % 256 ^ k := by
  induction k generalizing v with
  | zero => simp [toLE, ofLE, Nat.mod_one]
  | succ k ih =>
      rw [toLE, ofLE, ih, UInt8.toNat_ofNat', show 256 ^ (k + 1) = 256 * 256 ^ k from Nat.pow_succ',
        Nat.mod_mul]

theorem ofLE_toLE_of_lt (h : v < 256 ^ k) : ofLE (toLE k v) = v := by
  rw [ofLE_toLE, Nat.mod_eq_of_lt h]

theorem ofLE_lt : ofLE bs < 256 ^ bs.length := by
  induction bs with
  | nil => decide
  | cons b bs ih =>
      have := b.toNat_lt
      rw [ofLE, List.length_cons, Nat.pow_succ']
      omega

theorem toLE_ofLE : toLE bs.length (ofLE bs) = bs := by
  induction bs with
  | nil => rfl
  | cons b bs ih =>
      have hlt := b.toNat_lt
      have hdiv : (b.toNat + 256 * ofLE bs) / 256 = ofLE bs := by omega
      have hlow : UInt8.ofNat (b.toNat + 256 * ofLE bs) = b := by
        rw [← UInt8.toNat_inj, UInt8.toNat_ofNat']
        omega
      rw [ofLE, List.length_cons, toLE, hdiv, hlow, ih]

/-! ### Places in an image -/

/-- `img` has `bs` at `off`. -/
def At (img : List UInt8) (off : Nat) (bs : List UInt8) : Prop := bs <+: img.drop off

theorem at_append_iff : At img off (bs ++ cs) ↔ At img off bs ∧ At img (off + bs.length) cs := by
  constructor
  · rintro ⟨t, ht⟩
    refine ⟨⟨cs ++ t, by rw [← ht, List.append_assoc]⟩, t, ?_⟩
    rw [← List.drop_drop, ← ht, List.append_assoc, List.drop_left]
  · rintro ⟨⟨t, ht⟩, u, hu⟩
    rw [← List.drop_drop, ← ht, List.drop_left] at hu
    exact ⟨u, by rw [← ht, ← hu, List.append_assoc]⟩

theorem At.mono (h : At img off bs) (hp : img <+: img') : At img' off bs := by
  obtain ⟨t, rfl⟩ := hp
  rw [At, List.drop_append]
  exact h.trans (List.prefix_append _ _)

/-- What is appended lies at the end. -/
theorem at_end (img bs : List UInt8) : At (img ++ bs) img.length bs := by
  simp [At]

theorem At.le (h : At img off bs) (hne : bs ≠ []) : off + bs.length ≤ img.length := by
  have hl := h.length_le
  have hpos := List.length_pos_iff.mpr hne
  rw [List.length_drop] at hl
  omega

theorem At.getElem? (h : At img off bs) {i : Nat} (hi : i < bs.length) :
    img[off + i]? = bs[i]? := by
  obtain ⟨t, ht⟩ := h
  rw [← List.getElem?_drop, ← ht, List.getElem?_append_left hi]

/-- A change in front of `bs` leaves it where it is. -/
theorem At.replace {pre pre' : List UInt8} (h : At (pre ++ img) off bs)
    (hlen : pre'.length = pre.length) (hoff : pre.length ≤ off) : At (pre' ++ img) off bs := by
  rw [At, List.drop_append, List.drop_eq_nil_of_le hoff] at h
  rw [At, List.drop_append, List.drop_eq_nil_of_le (hlen ▸ hoff), hlen]
  exact h

/-! ### Partial memory -/

/-- A byte for every address that may be read. -/
abbrev PMem := Nat → Option UInt8

/-- The `n` bytes at `a`; `none` when one of them may not be read. -/
def peek (mem : PMem) : Nat → Nat → Option (List UInt8)
  | _, 0 => some []
  | a, n + 1 => do
      let b ← mem a
      let bs ← peek mem (a + 1) n
      return b :: bs

/-- The bytes read, one by one. -/
theorem peek_eq_some {mem : PMem} {a n : Nat} (h : peek mem a n = some bs) :
    bs.length = n ∧ ∀ i (hi : i < bs.length), mem (a + i) = some bs[i] := by
  induction n generalizing a bs with
  | zero =>
      cases h
      exact ⟨rfl, fun i hi => absurd hi (Nat.not_lt_zero i)⟩
  | succ n ih =>
      obtain ⟨b, hb, h⟩ := Option.bind_eq_some_iff.mp h
      obtain ⟨cs, hcs, h⟩ := Option.bind_eq_some_iff.mp h
      cases h
      obtain ⟨hlen, hget⟩ := ih hcs
      refine ⟨congrArg Nat.succ hlen, fun i hi => ?_⟩
      cases i with
      | zero => exact hb
      | succ i =>
          rw [← Nat.add_assoc, Nat.add_right_comm]
          exact hget i (Nat.lt_of_succ_lt_succ hi)

/-- The number in the `k` bytes at `a`. -/
def peekLE (mem : PMem) (k a : Nat) : Option Nat := (peek mem a k).map ofLE

/-- Whether the bytes at `a` are `bs`, reading up to the first difference. -/
def peekEq (mem : PMem) : Nat → List UInt8 → Option Bool
  | _, [] => some true
  | a, b :: bs => do
      let c ← mem a
      if c = b then peekEq mem (a + 1) bs else return false

/-- The image is in memory from `base` on. -/
def Loaded (mem : PMem) (base : Nat) (img : List UInt8) : Prop :=
  ∀ i b, img[i]? = some b → mem (base + i) = some b

variable {mem : PMem} {base : Nat}

theorem Loaded.tail {b : UInt8} (h : Loaded mem base (b :: bs)) : Loaded mem (base + 1) bs :=
  fun i c hc => by rw [Nat.add_right_comm, Nat.add_assoc]; exact h (i + 1) c hc

theorem Loaded.head {b : UInt8} (h : Loaded mem base (b :: bs)) : mem base = some b := h 0 b rfl

theorem Loaded.peek (h : Loaded mem base bs) : RivOS.peek mem base bs.length = some bs := by
  induction bs generalizing base with
  | nil => rfl
  | cons b bs ih => simp [RivOS.peek, h.head, ih h.tail]

theorem Loaded.peekEq (h : Loaded mem base bs) (hlen : bs.length = cs.length) :
    RivOS.peekEq mem base cs = some (decide (bs = cs)) := by
  induction bs generalizing base cs with
  | nil =>
      obtain rfl := List.eq_nil_of_length_eq_zero hlen.symm
      rfl
  | cons b bs ih =>
      obtain ⟨c, cs, rfl⟩ := List.exists_cons_of_length_eq_add_one hlen.symm
      have ih := ih h.tail (Nat.succ.inj hlen)
      by_cases hbc : b = c <;> simp [RivOS.peekEq, h.head, hbc, ih]

/-- What lies in a loaded image is loaded. -/
theorem Loaded.at (h : Loaded mem base img) (ha : At img off bs) : Loaded mem (base + off) bs := by
  intro i b hb
  have hi : i < bs.length := (List.getElem?_eq_some_iff.mp hb).1
  rw [Nat.add_assoc]
  exact h _ b (by rw [ha.getElem? hi, hb])

theorem Loaded.peekLE (h : Loaded mem base img) (ha : At img off (toLE k v)) (hv : v < 256 ^ k) :
    RivOS.peekLE mem k (base + off) = some v := by
  have hp := (h.at ha).peek
  rw [length_toLE] at hp
  rw [RivOS.peekLE, hp, Option.map_some, ofLE_toLE_of_lt hv]

end RivOS
