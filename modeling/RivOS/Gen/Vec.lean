import RivOS.Gen.Err
import RivOS.Gen.Map
import RivOS.Mem.HeapOwned
import RivOS.Support.Cells
import RivOS.Support.Except
import RivOS.Support.Paging

/-!
# Gen — Vector, and the map over it in memory

`gen/vec.hpp` and `gen/map.hpp` for entries of two 32-bit words, whose elements are on the kernel
heap.  An element is copied field by field, which copies its bytes (`entryCodec`).

* `Holds m v es`: the vector has the elements `es` in memory.
* `eraseAt_holds`, `pushBack_owns`: on them `eraseAt` and `pushBack` do what they do on lists, the
  second as long as the vector owns its array, and it owns the new one then.
* `get_eq`, `exists_eq`, `rmkey_eq`: the map in memory is the map of the list.
-/

namespace RivOS

/-- `MapEntry<u32, T>` for a pointer type `T`. -/
abbrev Entry := Word × Word

/-- `Vector<MapEntry<u32, T>>`. -/
structure EntryVec where
  arr : Nat
  len : Nat
  capacity : Nat

namespace EntryVec

variable {m m' : Mem} {a d s i j n x : Nat} {e : Entry} {v v' : EntryVec} {es : List Entry} {k : Word}

/-! ### Elements in memory -/

/-- `sizeof(MapEntry<u32, T>)`. -/
def entrySize : Nat := 8

def readEntry (m : Mem) (a : Nat) : Entry :=
  (BitVec.ofNat 32 (readLE m 4 a), BitVec.ofNat 32 (readLE m 4 (a + 4)))

def writeEntry (m : Mem) (a : Nat) (e : Entry) : Mem :=
  writeLE (writeLE m 4 a e.1.toNat) 4 (a + 4) e.2.toNat

/-- `n` elements from `s` on copied to `d`, the first one first. -/
def copyEntries (m : Mem) (d s : Nat) : Nat → Mem
  | 0 => m
  | n + 1 =>
      let m := copyEntries m d s n
      writeEntry m (d + n * entrySize) (readEntry m (s + n * entrySize))

/-- An element as its bytes. -/
def entryCodec : Codec Entry where
  sizeof := entrySize
  pos := Nat.succ_pos 7
  encode e := toLE 4 e.1.toNat ++ toLE 4 e.2.toNat
  decode bs := (BitVec.ofNat 32 (ofLE (bs.take 4)), BitVec.ofNat 32 (ofLE (bs.drop 4)))
  length_encode e := by rw [List.length_append, length_toLE, length_toLE]; rfl
  decode_encode e := by
    have hword : ∀ w : Word, BitVec.ofNat 32 (ofLE (toLE 4 w.toNat)) = w := fun w => by
      rw [ofLE_toLE_of_lt (show w.toNat < 256 ^ 4 from w.isLt), BitVec.ofNat_toNat,
        BitVec.setWidth_eq]
    rw [List.take_left' (length_toLE ..), List.drop_left' (length_toLE ..), hword, hword]

theorem readEntry_eq : readEntry m a = entryCodec.read m a := by
  have hload : load m a entryCodec.sizeof = load m a 4 ++ load m (a + 4) 4 := load_add 4 4
  rw [Codec.read, hload]
  simp only [entryCodec]
  rw [List.take_left' length_load, List.drop_left' length_load]
  rfl

theorem writeEntry_eq : writeEntry m a e = entryCodec.write m a e := by
  rw [writeEntry, writeLE, writeLE, store_store (by rw [length_toLE])]
  rfl

theorem copyEntries_eq : copyEntries m d s n = entryCodec.copy m d s n := by
  induction n with
  | zero => rfl
  | succ n ih =>
      rw [copyEntries, ih, writeEntry_eq, readEntry_eq]
      rfl

theorem writeEntry_of_not_mem (h : x < a ∨ a + entrySize ≤ x) : writeEntry m a e x = m x := by
  rw [writeEntry_eq]
  exact Codec.write_of_not_mem h

theorem copyEntries_of_not_mem (h : x < d ∨ d + n * entrySize ≤ x) :
    copyEntries m d s n x = m x := by
  rw [copyEntries_eq]
  exact Codec.copy_of_not_mem h

/-- The elements of the vector are `es`. -/
structure Holds (m : Mem) (v : EntryVec) (es : List Entry) : Prop where
  len : v.len = es.length
  entry : ∀ (i : Nat) (e : Entry), es[i]? = some e → readEntry m (v.arr + i * entrySize) = e

theorem holds_iff : Holds m v es ↔ v.len = es.length ∧ entryCodec.Holds m v.arr es := by
  constructor
  · intro h
    refine ⟨h.len, fun i e he => ?_⟩
    rw [← readEntry_eq]
    exact h.entry i e he
  · rintro ⟨hlen, h⟩
    refine ⟨hlen, fun i e he => ?_⟩
    rw [readEntry_eq]
    exact h i e he

theorem Holds.congr (h : Holds m v es)
    (hm : ∀ x, v.arr ≤ x → x < v.arr + v.len * entrySize → m' x = m x) : Holds m' v es := by
  obtain ⟨hlen, hes⟩ := holds_iff.mp h
  refine holds_iff.mpr ⟨hlen, hes.congr ?_⟩
  rw [← hlen]
  exact hm

/-! ### The vector -/

/-- `operator[]`; `none` is an error. -/
def at? (v : EntryVec) (m : Mem) (ind : Nat) : Option Entry :=
  if v.arr = 0 then none
  else if ind < v.len then some (readEntry m (v.arr + ind * entrySize)) else none

/-- The elements move down by one, past the end of the last one too. -/
def eraseAt (v : EntryVec) (ind : Nat) (m : Mem) : EntryVec × Mem :=
  if ind ≥ v.len then (v, m)
  else ({ v with len := v.len - 1 },
    copyEntries m (v.arr + ind * entrySize) (v.arr + (ind + 1) * entrySize) (v.len - ind))

open KernelAllocator (alloc free Tenancy)

/-- A full vector moves to an array twice as large. -/
def grow (r : HeapRegion) (fuel : Nat) (v : EntryVec) (m : Mem) : Except Halt (EntryVec × Mem) :=
  if v.len ≥ v.capacity then do
    let (newArr, m) ← orHalt .undefined (alloc r (v.capacity * 2 * entrySize) fuel m)
    match newArr with
    | none => kpanic "New array allocation failed in Vector."
    | some newArr => return ({ v with arr := newArr, capacity := v.capacity * 2 },
        free v.arr (copyEntries m newArr v.arr v.len))
  else return (v, m)

def pushBack (r : HeapRegion) (fuel : Nat) (v : EntryVec) (elem : Entry) (m : Mem) :
    Except Halt (EntryVec × Mem) := do
  let (v, m) ← grow r fuel v m
  return ({ v with len := v.len + 1 }, writeEntry m (v.arr + v.len * entrySize) elem)

theorem eraseAt_holds {ind : Nat} (h : Holds m v es) (hind : ind < es.length) :
    Holds (v.eraseAt ind m).2 (v.eraseAt ind m).1 (es.eraseIdx ind) ∧
      (∀ x, x < v.arr ∨ v.arr + v.len * entrySize ≤ x → (v.eraseAt ind m).2 x = m x) ∧
      (v.eraseAt ind m).1.arr = v.arr ∧ (v.eraseAt ind m).1.capacity = v.capacity := by
  obtain ⟨hlen, hes⟩ := holds_iff.mp h
  rw [eraseAt, if_neg (by omega)]
  refine ⟨holds_iff.mpr ⟨?_, ?_⟩, fun x hx => copyEntries_of_not_mem ?_, rfl, rfl⟩
  · rw [List.length_eraseIdx_of_lt hind, hlen]
  · rw [copyEntries_eq, hlen]
    exact hes.erase hind
  · simp only [entrySize] at hx ⊢
    omega

/-! ### The array and the heap -/

variable {r : HeapRegion} {others : Nat → Option Nat} {fuel : Nat}

/-- The vector's array is a payload of its own, beside those of `others`, and long enough. -/
structure Owns (r : HeapRegion) (m : Mem) (v : EntryVec) (others : Nat → Option Nat) : Prop where
  alone : others v.arr = none
  tenancy : Tenancy r m (Function.update others v.arr (some (v.capacity * entrySize)))
  fits : v.len ≤ v.capacity
  pos : 0 < v.capacity

theorem Owns.arr_ne_zero (h : Owns r m v others) : v.arr ≠ 0 := by
  have := (h.tenancy.bounds (Function.update_self ..)).1
  omega

/-- A write to the elements of the vector. -/
theorem Owns.write (h : Owns r m v others)
    (hm : ∀ x, x < v.arr ∨ v.arr + v.capacity * entrySize ≤ x → m' x = m x) :
    Tenancy r m' (Function.update others v.arr (some (v.capacity * entrySize))) ∧
      KernelAllocator.Keeps others m m' := by
  obtain ⟨ht, hkeep⟩ := h.tenancy.write (Function.update_self ..) hm
  refine ⟨ht, fun p n x hp => hkeep p n x ?_ ?_⟩
  · rw [Function.update_of_ne, hp]
    rintro rfl
    rw [h.alone] at hp
    cases hp
  · rintro rfl
    rw [h.alone] at hp
    cases hp

theorem grow_owns (ho : Owns r m v others) (hh : Holds m v es)
    (hsmall : v.capacity * 2 * entrySize ≤ r.heapEnd - r.heapStart)
    (h : grow r fuel v m = .ok (v', m')) :
    Owns r m' v' others ∧ Holds m' v' es ∧ KernelAllocator.Keeps others m m' ∧
      v'.len < v'.capacity ∧ v'.capacity ≤ max v.capacity (v.len * 2) := by
  rw [grow] at h
  split at h
  · obtain ⟨⟨newArr, m₁⟩, halloc, h⟩ := bind_eq_ok.mp h
    rcases ho.tenancy.alloc hsmall (orHalt_eq_ok.mp halloc) with ⟨rfl, -⟩ | ⟨p, rfl, hp, ht, hkeep⟩
    · cases h
    cases h
    have hfits := ho.fits
    have hpos := ho.pos
    have hne : p ≠ v.arr := by
      rintro rfl
      rw [Function.update_self] at hp
      cases hp
    rw [Function.update_of_ne hne] at hp
    have harr : Function.update (Function.update others v.arr (some (v.capacity * entrySize))) p
        (some (v.capacity * 2 * entrySize)) v.arr = some (v.capacity * entrySize) := by
      rw [Function.update_of_ne (Ne.symm hne), Function.update_self]
    -- the copy goes to the new array only, and from the old one
    have hdisjoint : p ≤ v.arr ∨ v.arr + v.len * entrySize ≤ p := by
      by_contra hno
      refine ht.disjoint harr (Function.update_self ..) (Ne.symm hne) (x := p) ?_ ?_ ⟨?_, ?_⟩ <;>
        simp only [entrySize] at hno ⊢ <;> omega
    have hcopy : ∀ x, x < p ∨ p + v.capacity * 2 * entrySize ≤ x →
        copyEntries m₁ p v.arr v.len x = m₁ x := by
      intro x hx
      refine copyEntries_of_not_mem ?_
      simp only [entrySize] at hx ⊢
      omega
    obtain ⟨ht', hkeep'⟩ := ht.write (Function.update_self ..) hcopy
    obtain ⟨hfree, hkeep''⟩ := ht'.free harr
    have howner : Function.update (Function.update (Function.update others v.arr
        (some (v.capacity * entrySize))) p (some (v.capacity * 2 * entrySize))) v.arr none =
        Function.update others p (some (v.capacity * 2 * entrySize)) := by
      rw [Function.update_comm hne, Function.update_idem, ← ho.alone, Function.update_eq_self]
    rw [howner] at hfree
    have hheld : Holds (copyEntries m₁ p v.arr v.len)
        { v with arr := p, capacity := v.capacity * 2 } es := by
      have hh₁ : Holds m₁ v es := hh.congr fun x hlo hhi =>
        hkeep _ _ x (Function.update_self ..) hlo (by
          simp only [entrySize] at hhi ⊢
          omega)
      obtain ⟨hlen, hes⟩ := holds_iff.mp hh₁
      rw [hlen] at hdisjoint ⊢
      rw [copyEntries_eq]
      exact holds_iff.mpr ⟨rfl, hes.copy hdisjoint⟩
    refine ⟨⟨hp, hfree, ?_, ?_⟩, hheld.congr fun x hlo hhi => ?_, ?_, ?_, ?_⟩
    · exact Nat.le_trans hfits (Nat.le_mul_of_pos_right _ (by decide))
    · exact Nat.mul_pos hpos (by decide)
    · refine hkeep'' p _ x (Function.update_self ..) hlo ?_
      simp only [entrySize] at hhi ⊢
      omega
    · intro q k x hq hlo hhi
      have hqv : q ≠ v.arr := by
        rintro rfl
        rw [ho.alone] at hq
        cases hq
      have hqp : q ≠ p := by
        rintro rfl
        rw [hp] at hq
        cases hq
      have hq₁ : Function.update others v.arr (some (v.capacity * entrySize)) q = some k := by
        rw [Function.update_of_ne hqv, hq]
      have hq₂ : Function.update (Function.update others v.arr (some (v.capacity * entrySize))) p
          (some (v.capacity * 2 * entrySize)) q = some k := by
        rw [Function.update_of_ne hqp, hq₁]
      rw [hkeep'' q k x hq₂ hlo hhi, hkeep' q k x hq₂ hqp hlo hhi, hkeep q k x hq₁ hlo hhi]
    · show v.len < v.capacity * 2
      omega
    · show v.capacity * 2 ≤ max v.capacity (v.len * 2)
      omega
  · cases h
    exact ⟨ho, hh, fun _ _ _ _ _ _ => rfl, by omega, Nat.le_max_left ..⟩

theorem pushBack_owns (ho : Owns r m v others) (hh : Holds m v es)
    (hsmall : v.capacity * 2 * entrySize ≤ r.heapEnd - r.heapStart)
    (h : pushBack r fuel v e m = .ok (v', m')) :
    Owns r m' v' others ∧ Holds m' v' (es ++ [e]) ∧ KernelAllocator.Keeps others m m' ∧
      v'.capacity ≤ max v.capacity (v.len * 2) := by
  obtain ⟨⟨v₁, m₁⟩, hgrow, h⟩ := bind_eq_ok.mp h
  obtain ⟨ho₁, hh₁, hkeep₁, hlt, hcap⟩ := grow_owns ho hh hsmall hgrow
  cases h
  have hout : ∀ x, x < v₁.arr ∨ v₁.arr + v₁.capacity * entrySize ≤ x →
      writeEntry m₁ (v₁.arr + v₁.len * entrySize) e x = m₁ x := by
    intro x hx
    refine writeEntry_of_not_mem ?_
    simp only [entrySize] at hx ⊢
    omega
  obtain ⟨ht, hkeep⟩ := ho₁.write hout
  obtain ⟨hlen, hes⟩ := holds_iff.mp hh₁
  refine ⟨⟨ho₁.alone, ht, hlt, ho₁.pos⟩, holds_iff.mpr ⟨?_, ?_⟩, fun q k x hq hlo hhi => ?_, hcap⟩
  · rw [List.length_append, List.length_singleton, ← hlen]
  · rw [writeEntry_eq, hlen]
    exact hes.concat e
  · rw [hkeep q k x hq hlo hhi, hkeep₁ q k x hq hlo hhi]

/-! ### The map -/

/-- The loop that `operator[]` and `rmkey` share. -/
def foundIndex (v : EntryVec) (m : Mem) (k : Word) : Except Halt (Option Nat) :=
  if v.arr = 0 ∧ 0 < v.len then kpanic "Called val() on an err value"
  else .ok ((List.range v.len).find? fun i => (readEntry m (v.arr + i * entrySize)).1 = k)

def get (v : EntryVec) (m : Mem) (k : Word) : Except Halt Word := do
  match ← v.foundIndex m k with
  | some i =>
      match v.at? m i with
      | some e => return e.2
      | none => kpanic "Called val() on an err value"
  | none => kpanic "Called val() on an err value"

def rmkey (v : EntryVec) (m : Mem) (k : Word) : Except Halt (EntryVec × Mem) := do
  match ← v.foundIndex m k with
  | some i => return v.eraseAt i m
  | none => return (v, m)

/-- The loop from `begin()` to `end()`. -/
def «exists» (v : EntryVec) (m : Mem) (k : Word) : Bool :=
  (List.range v.len).any fun i => (readEntry m (v.arr + i * entrySize)).1 = k

/-- The first index in a list, by index. -/
theorem find?_range {α : Type} {p : α → Bool} {q : Nat → Bool} {l : List α}
    (h : ∀ i (hi : i < l.length), q i = p l[i]) :
    (List.range l.length).find? q = l.findIdx? p := by
  refine Option.ext fun i => ?_
  rw [List.find?_range_eq_some, List.findIdx?_eq_some_iff_getElem]
  constructor
  · rintro ⟨hi, hmem, hbefore⟩
    rw [List.mem_range] at hmem
    refine ⟨hmem, h i hmem ▸ hi, fun j hj => ?_⟩
    have := hbefore j hj
    rw [h j (by omega)] at this
    simpa using this
  · rintro ⟨hi, hp, hbefore⟩
    refine ⟨(h i hi).trans hp, List.mem_range.mpr hi, fun j hj => ?_⟩
    rw [h j (by omega)]
    simpa using hbefore j hj

theorem foundIndex_eq (hh : Holds m v es) (harr : v.arr ≠ 0) :
    v.foundIndex m k = .ok (Map.foundIndex ⟨es⟩ k) := by
  rw [foundIndex, if_neg fun hc => harr hc.1, hh.len, Map.foundIndex, find?_range fun i hi => ?_]
  rw [hh.entry i _ (List.getElem?_eq_getElem hi)]

theorem get_eq (hh : Holds m v es) (harr : v.arr ≠ 0) :
    v.get m k = match Map.get ⟨es⟩ k with
      | some x => .ok x
      | none => kpanic "Called val() on an err value" := by
  rw [get, foundIndex_eq hh harr, Map.get]
  cases hi : Map.foundIndex ⟨es⟩ k with
  | none => rfl
  | some i =>
      obtain ⟨hlt, -⟩ := List.findIdx?_eq_some_iff_getElem.mp hi
      have hat : v.at? m i = some es[i] := by
        rw [at?, if_neg harr, if_pos (hh.len ▸ hlt), hh.entry i _ (List.getElem?_eq_getElem hlt)]
      have hget : (some i).bind (es[·]?) = some es[i] := List.getElem?_eq_getElem hlt
      rw [hget]
      show (match v.at? m i with
        | some e => Except.ok e.2
        | none => kpanic "Called val() on an err value") = _
      rw [hat]
      rfl

theorem exists_eq (hh : Holds m v es) : v.exists m k = Map.exists ⟨es⟩ k := by
  rw [EntryVec.exists, Map.exists, Bool.eq_iff_iff, List.any_eq_true, List.any_eq_true, hh.len]
  constructor
  · rintro ⟨i, hi, hk⟩
    have hi := List.mem_range.mp hi
    rw [hh.entry i _ (List.getElem?_eq_getElem hi)] at hk
    exact ⟨es[i], List.getElem_mem hi, hk⟩
  · rintro ⟨e, he, hk⟩
    obtain ⟨i, hi, rfl⟩ := List.getElem_of_mem he
    refine ⟨i, List.mem_range.mpr hi, ?_⟩
    rw [hh.entry i _ (List.getElem?_eq_getElem hi)]
    exact hk

theorem rmkey_owns (ho : Owns r m v others) (hh : Holds m v es) (h : v.rmkey m k = .ok (v', m')) :
    Owns r m' v' others ∧ Holds m' v' (Map.rmkey ⟨es⟩ k).entries ∧
      KernelAllocator.Keeps others m m' ∧ v'.capacity = v.capacity := by
  rw [rmkey, foundIndex_eq hh ho.arr_ne_zero] at h
  rw [Map.rmkey]
  cases hi : Map.foundIndex ⟨es⟩ k with
  | none =>
      rw [hi] at h
      cases h
      exact ⟨ho, hh, fun _ _ _ _ _ _ => rfl, rfl⟩
  | some i =>
      rw [hi] at h
      obtain ⟨hlt, -⟩ := List.findIdx?_eq_some_iff_getElem.mp hi
      have hr : v.eraseAt i m = (v', m') := Except.ok.inj h
      obtain ⟨hh', hout, harr, hcap⟩ := eraseAt_holds hh hlt
      rw [hr] at hh' hout harr hcap
      have hfits := ho.fits
      obtain ⟨ht, hkeep⟩ := ho.write fun x hx => hout x (by
        simp only [entrySize] at hx ⊢
        omega)
      refine ⟨⟨by rw [harr]; exact ho.alone, by rw [harr, hcap]; exact ht, ?_, hcap ▸ ho.pos⟩, hh',
        hkeep, hcap⟩
      have hlen := List.length_eraseIdx_le es i
      rw [hcap, hh'.len]
      exact Nat.le_trans hlen (hh.len ▸ hfits)

end EntryVec

end RivOS
