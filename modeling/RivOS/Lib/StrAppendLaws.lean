import RivOS.Lib.StrAppend

/-!
# Lib — Appending is concatenation

One invariant for the constructors and the three ways to append, with their two ways to grow.

* `Good`: the buffer begins with the text and a NUL, which is in it, and belongs to the string alone.
  `Good.write` is the one lemma about stores, `Good.double` the one about growing.
* `Good.call`, `Good.proper`: a call that is `Proper`, and no other, returns without a store outside
  the buffer, and leaves the text with what was appended.
* `concatenates_iff`: the same for the calls one after the other.
-/

namespace RivOS.Lib.Append

open KernelAllocator (Holding)

variable {r : HeapRegion} {m : Mem} {t u : State} {x y s ws bytes : List UInt8} {c : UInt8}
  {off k n raw : Nat} {as bs : List Access}

/-! ### Stores -/

theorem textOf_eq (hx : 0 ∉ x) (h : x ++ [0] <+: bytes) : textOf bytes = some x := by
  obtain ⟨rest, rfl⟩ := h
  have hmem : (0 : UInt8) ∈ x ++ [0] ++ rest := by simp
  have hall : ∀ c ∈ x, decide (c ≠ 0) = true := fun c hc =>
    decide_eq_true fun h => hx (h ▸ hc)
  rw [textOf, if_pos hmem, List.append_assoc, List.takeWhile_append_of_pos hall]
  simp

theorem length_stored (h : off + ws.length ≤ bytes.length) :
    (stored bytes off ws).length = bytes.length := by
  simp only [stored, List.length_append, List.length_take, List.length_drop]
  omega

/-- What stands before the bytes stays. -/
theorem prefix_stored (hy : y <+: bytes) : y ++ ws <+: stored bytes y.length ws := by
  obtain ⟨rest, rfl⟩ := hy
  rw [stored, List.take_left]
  exact List.prefix_append _ _

theorem Within.mono (h : Within bs) (hs : as <+: bs) : Within as := fun a ha => h a (hs.subset ha)

theorem within_concat {a : Access} (h : Within as) (ha : a.Inside) (hsize : a.size ≤ 2 ^ 27) :
    Within (as ++ [a]) := by
  intro b hb
  rcases List.mem_append.mp hb with hb | hb
  · exact h b hb
  · rw [List.mem_singleton.mp hb]
    exact ⟨ha, hsize⟩

/-! ### The invariant -/

structure Good (r : HeapRegion) (t : State) (x : List UInt8) : Prop where
  len : t.len = x.length
  fits : x.length < t.capacity
  nulFree : 0 ∉ x
  bytes : x ++ [0] <+: t.cStr.bytes
  size : t.cStr.bytes.length = t.capacity
  holding : Holding r t.heap [t.cStr]
  within : Within t.written

theorem Good.textOf (h : Good r t x) : textOf t.cStr.bytes = some x := textOf_eq h.nulFree h.bytes

theorem Good.capacity_le (h : Good r t x) : t.capacity ≤ 2 ^ 27 :=
  h.size ▸ h.holding.length_le List.mem_cons_self

/-- The length of a text that fits does not wrap. -/
theorem Good.succ_mod (h : Good r t x) : (t.len + 1) % 2 ^ 32 = t.len + 1 := by
  have hcap := h.capacity_le
  have hfits := h.fits
  have hlen := h.len
  exact Nat.mod_eq_of_lt (by omega)

/-- A text and its NUL are stored behind what stays. -/
theorem good_write (hy : y <+: t.cStr.bytes) (hs : s ++ [0] <+: ws) (hnul : 0 ∉ y ++ s)
    (hroom : y.length + ws.length ≤ t.capacity) (hlen : t.len = (y ++ s).length)
    (hsize : t.cStr.bytes.length = t.capacity) (hheld : Holding r t.heap [t.cStr])
    (hwithin : Within t.written) : Good r (t.write y.length ws) (y ++ s) := by
  have hws := hs.length_le
  have hstored : (stored t.cStr.bytes y.length ws).length = t.cStr.bytes.length :=
    length_stored (by omega)
  rw [List.length_append, List.length_singleton] at hws
  have hcap : t.capacity ≤ 2 ^ 27 := hsize ▸ hheld.length_le List.mem_cons_self
  refine ⟨hlen, ?_, hnul, ?_, hstored.trans hsize, hheld.put rfl hstored,
    within_concat hwithin hroom hcap⟩
  · change (y ++ s).length < t.capacity
    rw [List.length_append]
    omega
  · rw [List.append_assoc]
    exact ((List.prefix_append_right_inj y).mpr hs).trans (prefix_stored hy)

/-- The end of `operator+=`: the length is set, and the characters are stored at the NUL. -/
theorem Good.write (h : Good r t x) (hs : 0 ∉ s) (hfit : x.length + s.length < t.capacity)
    (hlen : n = x.length + s.length) :
    Good r ({ t with len := n }.write x.length (s ++ [0])) (x ++ s) := by
  refine good_write ((List.prefix_append x [0]).trans h.bytes) (List.prefix_refl _) ?_ ?_ ?_ h.size
    h.holding h.within
  · exact fun hmem => (List.mem_append.mp hmem).elim h.nulFree hs
  · change x.length + (s ++ [0]).length ≤ t.capacity
    rw [List.length_append, List.length_singleton]
    omega
  · rw [List.length_append]
    exact hlen

theorem Good.reset (h : Good r t x) : Good r (reset t) [] := by
  have hfits := h.fits
  refine good_write (y := []) (s := []) List.nil_prefix (List.prefix_refl _) (by simp) ?_ rfl h.size
    h.holding h.within
  change 0 + 1 ≤ t.capacity
  omega

/-! ### Growing -/

theorem double_eq_error (h : ¬ (KernelAllocator.buffers r).HasRoom (t.capacity * 2) t.heap)
    (hcap : t.capacity ≤ 2 ^ 27) : double r t = .error .undefined := by
  obtain ⟨m, hm⟩ := Allocator.refused h
  rw [double, Nat.mod_eq_of_lt (by omega), hm]

/-- The text is moved to a new buffer of twice the size. -/
theorem Good.double (h : Good r t x)
    (hroom : (KernelAllocator.buffers r).HasRoom (t.capacity * 2) t.heap) :
    ∃ u, double r t = .ok u ∧ Good r u x ∧ u.capacity = t.capacity * 2 ∧ u.len = t.len ∧
      u.cStr.addr ≠ t.cStr.addr := by
  have hcap := h.capacity_le
  have hfits := h.fits
  have hmod : t.capacity * 2 % 2 ^ 32 = t.capacity * 2 := Nat.mod_eq_of_lt (by omega)
  obtain ⟨newArr, m, hm⟩ := hroom.buffer
  obtain ⟨hnew, hlen, hheld⟩ := h.holding.alloc (by omega) hm
  have hne : newArr.addr ≠ t.cStr.addr := fun he =>
    hnew (he ▸ h.holding.inUse List.mem_cons_self)
  refine ⟨State.write ⟨newArr, t.len, t.capacity * 2, (KernelAllocator.buffers r).free t.cStr m,
    t.written⟩ 0 (x ++ [0]), ?_, ?_, rfl, rfl, hne⟩
  · rw [Append.double, hmod, hm]
    simp only [h.textOf, orHalt]
    rfl
  · refine good_write (y := []) List.nil_prefix (List.prefix_refl _) h.nulFree ?_ h.len hlen
      (hheld.perm (.swap _ _ _)).free h.within
    change 0 + (x ++ [0]).length ≤ t.capacity * 2
    rw [List.length_append, List.length_singleton]
    omega

/-- Growing does not look at the length. -/
theorem double_setLen (n : Nat) :
    double r { t with len := n } = (double r t).map fun u => { u with len := n } := by
  simp only [double]
  rcases (KernelAllocator.buffers r).alloc (t.capacity * 2 % 2 ^ 32) t.heap with ⟨_ | newArr, m⟩
  · rfl
  · rcases Append.textOf t.cStr.bytes with _ | x <;> rfl

/-! ### A character -/

theorem Good.appendChar (h : Good r t x) (hc : c ≠ 0) (hroom : RoomFor r 1 t) :
    ∃ u, appendChar r t c = .ok u ∧ Good r u (x ++ [c]) ∧
      (t.len + 1 < t.capacity → u.cStr.addr = t.cStr.addr ∧ u.capacity = t.capacity) ∧
      (t.capacity ≤ t.len + 1 → u.cStr.addr ≠ t.cStr.addr) := by
  have hfits := h.fits
  have hlen := h.len
  have hnul : 0 ∉ [c] := fun hmem => hc (List.mem_singleton.mp hmem).symm
  simp only [Append.appendChar, h.textOf, orHalt, ok_bind, h.succ_mod]
  by_cases hgrow : t.capacity ≤ t.len + 1
  · obtain ⟨u, hu, hgood, hcapu, -, hne⟩ := h.double (hroom hgrow)
    refine ⟨{ u with len := t.len + 1 }.write x.length [c, 0], ?_,
      hgood.write hnul ?_ (by rw [hlen]; rfl), fun hlt => absurd hgrow (Nat.not_le.mpr hlt),
      fun _ => hne⟩
    · rw [if_pos hgrow, double_setLen, hu]
      rfl
    · rw [hcapu, List.length_singleton]
      omega
  · refine ⟨{ t with len := t.len + 1 }.write x.length [c, 0], ?_,
      h.write hnul ?_ (by rw [hlen]; rfl), fun _ => ⟨rfl, rfl⟩, fun hle => absurd hle hgrow⟩
    · rw [if_neg hgrow]
      rfl
    · rw [List.length_singleton]
      omega

/-- Without room the character is stored through a null pointer. -/
theorem Good.roomFor (h : Good r t x) (hu : Append.appendChar r t c = .ok u) : RoomFor r 1 t := by
  intro hgrow
  by_contra hno
  simp only [Append.appendChar, h.textOf, orHalt, ok_bind, h.succ_mod] at hu
  rw [if_pos hgrow, double_setLen, double_eq_error hno h.capacity_le] at hu
  cases hu

/-! ### Characters -/

theorem Good.appendView (h : Good r t x) (hs : 0 ∉ s) (hroom : RoomForEach r s t) :
    ∃ u, appendView r s t = .ok u ∧ Good r u (x ++ s) := by
  induction s generalizing t x with
  | nil => exact ⟨t, rfl, by rwa [List.append_nil]⟩
  | cons c s ih =>
      obtain ⟨hc, hs⟩ := not_or.mp (List.mem_cons.not.mp hs)
      obtain ⟨u, hu, hgood, -⟩ := h.appendChar (Ne.symm hc) hroom.1
      obtain ⟨v, hv, hgood⟩ := ih hgood hs (hroom.2 u hu)
      refine ⟨v, ?_, List.append_cons x c s ▸ hgood⟩
      rw [Append.appendView, List.foldlM_cons, hu]
      exact hv

theorem Good.roomForEach (h : Good r t x) (hs : 0 ∉ s) (hu : Append.appendView r s t = .ok u) :
    RoomForEach r s t := by
  induction s generalizing t x with
  | nil => trivial
  | cons c s ih =>
      obtain ⟨hc, hs⟩ := not_or.mp (List.mem_cons.not.mp hs)
      rw [Append.appendView, List.foldlM_cons] at hu
      obtain ⟨v, hv, hu⟩ := bind_eq_ok.mp hu
      have hroom := h.roomFor hv
      obtain ⟨w, hw, hgood, -⟩ := h.appendChar (Ne.symm hc) hroom
      refine ⟨hroom, fun v' hv' => ?_⟩
      obtain rfl := Except.ok.inj (hv.symm.trans hv')
      obtain rfl := Except.ok.inj (hv.symm.trans hw)
      exact ih hgood hs hu

theorem Good.getElem (h : Good r t x) (hk : k < x.length) : t.cStr.bytes[k]? = some x[k] := by
  obtain ⟨rest, hrest⟩ := h.bytes
  rw [← hrest, List.append_assoc, List.getElem?_append_left hk, List.getElem?_eq_getElem hk]

/-- A turn of the loop, while the characters are still where they were. -/
theorem Good.appendSelfView_succ (h : Good r t x) (hraw : t.cStr.addr = raw) (hk : k < x.length) :
    appendSelfView r raw k (n + 1) t =
      Append.appendChar r t x[k] >>= appendSelfView r raw (k + 1) n := by
  rw [appendSelfView, if_neg (not_not.mpr hraw), h.getElem hk]
  rfl

/-- Characters of the string itself, none of them read after it has grown, are like others. -/
theorem Good.appendSelfView_eq (h : Good r t x) (hraw : t.cStr.addr = raw) (hk : k + n ≤ x.length)
    (hgrow : t.len + (n - 1) < t.capacity) :
    appendSelfView r raw k n t = Append.appendView r ((x.drop k).take n) t := by
  induction n generalizing t x k with
  | zero => rfl
  | succ n ih =>
      have hlt : k < x.length := by omega
      have hc : x[k] ≠ 0 := fun hc => h.nulFree (hc ▸ List.getElem_mem hlt)
      rw [h.appendSelfView_succ hraw hlt, List.drop_eq_getElem_cons hlt, List.take_succ_cons,
        Append.appendView, List.foldlM_cons]
      rcases hu : Append.appendChar r t x[k] with e | u
      · rfl
      rw [ok_bind, ok_bind]
      rcases Nat.eq_zero_or_pos n with rfl | hn
      · rfl
      obtain ⟨v, hv, hgood, hsame, -⟩ := h.appendChar hc (h.roomFor hu)
      obtain rfl := Except.ok.inj (hu.symm.trans hv)
      obtain ⟨haddr, hcap⟩ := hsame (by omega)
      have hlenu := hgood.len
      have hlen := h.len
      rw [List.length_append, List.length_singleton] at hlenu
      rw [ih hgood (haddr.trans hraw) (by rw [List.length_append]; omega) (by omega),
        List.drop_append_of_le_length (by omega), List.take_append_of_le_length]
      · rfl
      · rw [List.length_drop]
        omega

/-- The buffer was given back before the last character. -/
theorem Good.not_appendSelfView (h : Good r t x) (hk : k + n ≤ x.length)
    (hgrow : t.capacity ≤ t.len + (n - 1)) : appendSelfView r raw k n t ≠ .ok u := by
  induction n generalizing t x k with
  | zero =>
      have hfits := h.fits
      have hlen := h.len
      omega
  | succ n ih =>
      intro hu
      have hfits := h.fits
      have hlen := h.len
      obtain ⟨m, rfl⟩ : ∃ m, n = m + 1 := ⟨n - 1, by omega⟩
      have hlt : k < x.length := by omega
      by_cases hraw : t.cStr.addr = raw
      · rw [h.appendSelfView_succ hraw hlt] at hu
        obtain ⟨v, hv, hu⟩ := bind_eq_ok.mp hu
        have hc : x[k] ≠ 0 := fun hc => h.nulFree (hc ▸ List.getElem_mem hlt)
        obtain ⟨w, hw, hgood, hsame, hmoved⟩ := h.appendChar hc (h.roomFor hv)
        obtain rfl := Except.ok.inj (hv.symm.trans hw)
        have hlenv := hgood.len
        rw [List.length_append, List.length_singleton] at hlenv
        by_cases hstay : t.len + 1 < t.capacity
        · obtain ⟨-, hcap⟩ := hsame hstay
          exact ih hgood (by rw [List.length_append]; omega) (by omega) hu
        · rw [appendSelfView, if_pos (hraw ▸ hmoved (Nat.not_lt.mp hstay))] at hu
          cases hu
      · rw [appendSelfView, if_pos hraw] at hu
        cases hu

/-! ### A string -/

theorem growTurn_of_lt (h : (t.len + n) % 2 ^ 32 < t.capacity) : growTurn r n t = .ok (.inr t) :=
  if_neg (Nat.not_le.mpr h)

theorem growTurn_of_le (h : t.capacity ≤ (t.len + n) % 2 ^ 32) :
    growTurn r n t = (double r t).map .inl :=
  if_pos h

/-- A turn of the loop that goes on. -/
theorem Good.growTurn (h : Good r t x) (ht : growTurn r n t = .ok (.inl u)) :
    Good r u x ∧ u.capacity = t.capacity * 2 := by
  rcases Nat.lt_or_ge ((t.len + n) % 2 ^ 32) t.capacity with hlt | hle
  · rw [growTurn_of_lt hlt] at ht
    cases ht
  · rw [growTurn_of_le hle] at ht
    obtain ⟨v, hv, ht⟩ := map_eq_ok.mp ht
    cases ht
    by_cases hroom : (KernelAllocator.buffers r).HasRoom (t.capacity * 2) t.heap
    · obtain ⟨w, hw, hgood, hcap, -⟩ := h.double hroom
      obtain rfl := Except.ok.inj (hv.symm.trans hw)
      exact ⟨hgood, hcap⟩
    · rw [double_eq_error hroom h.capacity_le] at hv
      cases hv

theorem Good.reaches (h : Good r t x) (hu : Reaches (Append.growTurn r n) t u) : Good r u x := by
  induction hu with
  | refl => exact h
  | snoc _ hturn ih => exact (ih.growTurn hturn).1

/-- Where the loop is left the characters fit. -/
theorem Good.grown (h : Good r t x) (hu : turns (Append.growTurn r n) .undefined k t = .ok u) :
    Good r u x ∧ (x.length + n) % 2 ^ 32 < u.capacity := by
  refine turns_inv (I := fun t => Good r t x)
    (Q := fun u => Good r u x ∧ (x.length + n) % 2 ^ 32 < u.capacity)
    (fun ht hturn => (ht.growTurn hturn).1) ?_ h hu
  intro t u ht hturn
  rcases Nat.lt_or_ge ((t.len + n) % 2 ^ 32) t.capacity with hlt | hle
  · rw [growTurn_of_lt hlt] at hturn
    cases hturn
    exact ⟨ht, ht.len ▸ hlt⟩
  · rw [growTurn_of_le hle] at hturn
    obtain ⟨v, -, hturn⟩ := map_eq_ok.mp hturn
    cases hturn

/-- The loop is left before the buffer is larger than the memory. -/
theorem Good.grows (h : Good r t x) (hn : x.length + n < 2 ^ 32) (hroom : RoomForText r n t)
    (hk : 2 ^ 27 < t.capacity * 2 ^ k) : ∃ u, turns (Append.growTurn r n) .undefined k t = .ok u := by
  induction k generalizing t with
  | zero =>
      have hcap := h.capacity_le
      omega
  | succ k ih =>
      have hmod : (t.len + n) % 2 ^ 32 = t.len + n := Nat.mod_eq_of_lt (by rwa [h.len])
      rw [turns]
      rcases Nat.lt_or_ge (t.len + n) t.capacity with hlt | hle
      · rw [growTurn_of_lt (hmod.symm ▸ hlt)]
        exact ⟨t, rfl⟩
      · obtain ⟨u, hu, hgood, hcap, -⟩ := h.double (hroom t .refl hle)
        have hturn : Append.growTurn r n t = .ok (.inl u) := by
          rw [growTurn_of_le (hmod.symm ▸ hle), hu]
          rfl
        rw [hturn]
        refine ih hgood (fun v hv => hroom v (hv.cons hturn)) ?_
        rw [hcap, Nat.mul_assoc, ← Nat.pow_succ']
        exact hk

theorem Good.roomForText (h : Good r t x) (hn : x.length + n < 2 ^ 32)
    (hu : turns (Append.growTurn r n) .undefined k t = .ok u) : RoomForText r n t := by
  intro v hv hle
  by_contra hno
  have hgood := h.reaches hv
  have hmod : (v.len + n) % 2 ^ 32 = v.len + n := Nat.mod_eq_of_lt (by rwa [hgood.len])
  obtain ⟨q, hq⟩ := hv.turn_ok hu
  rw [growTurn_of_le (hmod.symm ▸ hle), double_eq_error hno hgood.capacity_le] at hq
  cases hq

theorem Good.append (h : Good r t x) (hs : 0 ∉ s) (hn : x.length + s.length < 2 ^ 32)
    (hroom : RoomForText r s.length t) :
    ∃ u, append r s t = .ok u ∧ Good r u (x ++ s) := by
  have hfits := h.fits
  obtain ⟨u, hu⟩ := h.grows hn hroom (k := 33) (by omega)
  obtain ⟨hgood, hlt⟩ := h.grown hu
  rw [Nat.mod_eq_of_lt hn] at hlt
  refine ⟨_, ?_, hgood.write hs hlt (Nat.mod_eq_of_lt hn)⟩
  rw [Append.append, hu, ok_bind, hgood.textOf, hgood.len]
  rfl

/-- The characters are stored behind what there was, also where they do not fit. -/
theorem Good.append_inv (h : Good r t x) (hu : Append.append r s t = .ok u) :
    ∃ v, turns (Append.growTurn r s.length) .undefined 33 t = .ok v ∧ Good r v x ∧
      ⟨v.capacity, x.length, s.length + 1⟩ ∈ u.written := by
  obtain ⟨v, hv, hu⟩ := bind_eq_ok.mp hu
  obtain ⟨hgood, -⟩ := h.grown hv
  rw [hgood.textOf] at hu
  cases hu
  refine ⟨v, hv, hgood, ?_⟩
  simp [State.write]

theorem Good.length_lt (h : Good r t x) : x.length + ([] : List UInt8).length < 2 ^ 32 := by
  have hfits := h.fits
  have hcap := h.capacity_le
  rw [List.length_nil]
  omega

/-- Nothing needs no room. -/
theorem Good.roomForText_zero (h : Good r t x) : RoomForText r 0 t := by
  intro u hu hle
  have hgood := h.reaches hu
  have hfits := hgood.fits
  have hlen := hgood.len
  omega

theorem Good.append_within_iff (h : Good r t x) (hs : 0 ∉ s) :
    (∃ u, Append.append r s t = .ok u ∧ Within u.written) ↔
      x.length + s.length < 2 ^ 32 ∧ RoomForText r s.length t := by
  constructor
  · rintro ⟨u, hu, hwithin⟩
    obtain ⟨v, hv, hgood, hmem⟩ := h.append_inv hu
    have hinside : x.length + (s.length + 1) ≤ v.capacity := (hwithin _ hmem).1
    have hcap := hgood.capacity_le
    have hn : x.length + s.length < 2 ^ 32 := by omega
    exact ⟨hn, h.roomForText hn hv⟩
  · rintro ⟨hn, hroom⟩
    obtain ⟨u, hu, hgood⟩ := h.append hs hn hroom
    exact ⟨u, hu, hgood.within⟩

/-! ### Numbers -/

theorem zero_not_mem_decimal (n : Nat) : (0 : UInt8) ∉ decimal n := fun h =>
  absurd (decimal_isdigit n 0 h) (by decide)

theorem zero_not_mem_fromiOut (n : Word) : 0 ∉ fromiOut n := by
  rw [fromiOut]
  split
  · decide
  · split
    · rw [List.mem_cons, not_or]
      exact ⟨by decide, zero_not_mem_decimal _⟩
    · exact zero_not_mem_decimal _

theorem fromiText_eq (n : Word) : fromiText n = .ok (fromiOut n) := by
  rw [fromiOut]
  split
  · next hmin => rw [hmin, fromiText_intMin]
  · next hmin =>
      split
      · next hneg => exact fromiText_neg hneg hmin
      · next hneg =>
          rcases Int.lt_or_eq_of_le (Int.not_lt.mp hneg) with hpos | hzero
          · exact fromiText_pos hpos
          · obtain rfl : n = 0 := BitVec.eq_of_toInt_eq hzero.symm
            rfl

theorem fromuText_eq (n : Word) : fromuText n = .ok (decimal n.toNat) := by
  by_cases hn : n = 0
  · subst hn
    rfl
  · rw [fromuText, if_neg hn, digitBuffer_reverse fun h => hn (BitVec.eq_of_toNat_eq h)]

/-! ### The calls -/

/-- The text of the string itself from `k` on. -/
theorem Good.textOf_drop (h : Good r t x) (hk : k ≤ x.length) :
    Append.textOf (t.cStr.bytes.drop k) = some (x.drop k) := by
  obtain ⟨rest, hrest⟩ := h.bytes
  refine textOf_eq (fun hmem => h.nulFree (List.mem_of_mem_drop hmem)) ⟨rest, ?_⟩
  rw [← hrest, List.append_assoc, List.append_assoc, List.drop_append_of_le_length hk]

theorem Good.take_bytes (h : Good r t x) (hk : k + n ≤ x.length) :
    (t.cStr.bytes.drop k).take n = (x.drop k).take n := by
  obtain ⟨rest, hrest⟩ := h.bytes
  rw [← hrest, List.append_assoc, List.drop_append_of_le_length (by omega),
    List.take_append_of_le_length]
  rw [List.length_drop]
  omega

theorem min_tail (back len : Nat) : len - back + min back len = len := by omega

/-- What the view of a part of the string shows. -/
theorem Good.selfView (h : Good r t x) (back n : Nat) :
    (t.cStr.bytes.drop (t.len - back)).take (min n (min back t.len)) =
      (x.drop (x.length - back)).take n := by
  have htail := min_tail back x.length
  rw [h.len, h.take_bytes (by omega)]
  rcases Nat.le_total n (min back x.length) with hn | hn
  · rw [Nat.min_eq_left hn]
  · have hlen : (x.drop (x.length - back)).length = min back x.length := by
      rw [List.length_drop]
      omega
    rw [Nat.min_eq_right hn, List.take_of_length_le (Nat.le_of_eq hlen),
      List.take_of_length_le (hlen ▸ hn)]

theorem Good.selfView_eq (h : Good r t x) {back : Nat}
    (hgrow : t.len + (min n (min back t.len) - 1) < t.capacity) :
    call r t (.selfView back n) =
      Append.appendView r ((x.drop (x.length - back)).take n) t := by
  have htail := min_tail back t.len
  rw [← h.selfView, h.take_bytes (by rw [← h.len]; omega)]
  exact h.appendSelfView_eq rfl (by rw [← h.len]; omega) hgrow

theorem Good.self_nil (h : Good r t x) {back : Nat} (hback : min back t.len = 0) :
    Append.textOf (t.cStr.bytes.drop (t.len - back)) = some [] ∧ x.drop (x.length - back) = [] := by
  have htail := min_tail back t.len
  have hnil : x.drop (t.len - back) = [] := List.drop_of_length_le (by rw [← h.len]; omega)
  rw [h.textOf_drop (by rw [← h.len]; omega), hnil, ← h.len]
  exact ⟨rfl, hnil⟩

theorem nulFree_part (h : Good r t x) : 0 ∉ (x.drop k).take n := fun hmem =>
  h.nulFree (List.mem_of_mem_drop (List.mem_of_mem_take hmem))

/-- **A call** appends. -/
theorem Good.call (h : Good r t x) {op : Op} (hp : Proper r t op) :
    ∃ u, call r t op = .ok u ∧ Good r u (textStep x op) := by
  cases op with
  | text s => exact h.append s.nulFree (h.len ▸ hp.1) hp.2
  | self back =>
      obtain ⟨htext, hnil⟩ := h.self_nil hp
      obtain ⟨u, hu, hgood⟩ := h.append List.not_mem_nil h.length_lt h.roomForText_zero
      refine ⟨u, ?_, ?_⟩
      · rw [Append.call, appendSelf, htext]
        exact hu
      · rw [textStep, hnil]
        exact hgood
  | char c hc =>
      obtain ⟨u, hu, hgood, -⟩ := h.appendChar hc hp
      exact ⟨u, hu, hgood⟩
  | view s => exact h.appendView s.nulFree hp
  | selfView back n =>
      obtain ⟨hgrow, hroom⟩ := hp
      rw [h.selfView] at hroom
      rw [h.selfView_eq hgrow]
      exact h.appendView (nulFree_part h) hroom
  | fromi n =>
      rw [Append.call, fromi, fromiText_eq, ok_bind]
      exact h.reset.appendView (zero_not_mem_fromiOut n) hp
  | fromu n =>
      rw [Append.call, fromu, fromuText_eq, ok_bind]
      exact h.reset.appendView (zero_not_mem_decimal _) hp

/-- No other call appends and stays in the buffer. -/
theorem Good.proper (h : Good r t x) {op : Op} (hu : Append.call r t op = .ok u)
    (hwithin : Within u.written) : Proper r t op := by
  cases op with
  | text s =>
      have hiff := h.append_within_iff s.nulFree
      rw [← h.len] at hiff
      exact hiff.mp ⟨u, hu, hwithin⟩
  | self back =>
      have htail := min_tail back t.len
      obtain ⟨s, hs, hu⟩ := bind_eq_ok.mp hu
      rw [h.textOf_drop (by rw [← h.len]; omega)] at hs
      obtain rfl := Except.ok.inj hs
      rcases hdrop : x.drop (t.len - back) with _ | ⟨c, s⟩
      · have hle := List.drop_eq_nil_iff.mp hdrop
        rw [← h.len] at hle
        change min back t.len = 0
        omega
      · rw [hdrop] at hu
        cases hu
  | char c hc => exact h.roomFor hu
  | view s => exact h.roomForEach s.nulFree hu
  | selfView back n =>
      have htail := min_tail back t.len
      have hgrow : t.len + (min n (min back t.len) - 1) < t.capacity := by
        by_contra hge
        exact h.not_appendSelfView (by rw [← h.len]; omega) (Nat.not_lt.mp hge) hu
      refine ⟨hgrow, ?_⟩
      rw [h.selfView_eq hgrow] at hu
      rw [h.selfView]
      exact h.roomForEach (nulFree_part h) hu
  | fromi n =>
      rw [Append.call, fromi, fromiText_eq, ok_bind] at hu
      exact h.reset.roomForEach (zero_not_mem_fromiOut n) hu
  | fromu n =>
      rw [Append.call, fromu, fromuText_eq, ok_bind] at hu
      exact h.reset.roomForEach (zero_not_mem_decimal _) hu

/-! ### What was written stays on record -/

theorem double_written (hu : double r t = .ok u) : t.written <+: u.written := by
  rw [double] at hu
  split at hu
  · cases hu
  · obtain ⟨x, -, hu⟩ := bind_eq_ok.mp hu
    cases hu
    exact List.prefix_append ..

theorem grow_written (hu : turns (growTurn r n) .undefined k t = .ok u) :
    t.written <+: u.written := by
  refine turns_inv (I := fun v => t.written <+: v.written)
    (Q := fun u => t.written <+: u.written) ?_ ?_ (List.prefix_refl _) hu
  · intro v w hv hw
    rw [growTurn] at hw
    split at hw
    · obtain ⟨w', hw', hw⟩ := map_eq_ok.mp hw
      cases hw
      exact hv.trans (double_written hw')
    · cases hw
  · intro v w hv hw
    rw [growTurn] at hw
    split at hw
    · obtain ⟨w', -, hw⟩ := map_eq_ok.mp hw
      cases hw
    · cases hw
      exact hv

theorem append_written (hu : append r s t = .ok u) : t.written <+: u.written := by
  obtain ⟨v, hv, hu⟩ := bind_eq_ok.mp hu
  obtain ⟨x, -, hu⟩ := bind_eq_ok.mp hu
  cases hu
  exact (grow_written hv).trans (List.prefix_append ..)

theorem appendChar_written (hu : appendChar r t c = .ok u) : t.written <+: u.written := by
  obtain ⟨x, -, hu⟩ := bind_eq_ok.mp hu
  dsimp only at hu
  split at hu
  · obtain ⟨v, hv, hu⟩ := bind_eq_ok.mp hu
    cases hu
    exact (double_written hv).trans (List.prefix_append ..)
  · cases hu
    exact List.prefix_append ..

theorem appendView_written (hu : appendView r s t = .ok u) : t.written <+: u.written :=
  foldlM_inv (P := fun _ v => t.written <+: v.written)
    (fun hv hw => hv.trans (appendChar_written hw)) (List.prefix_refl _) hu

theorem appendSelfView_written (hu : appendSelfView r raw k n t = .ok u) :
    t.written <+: u.written := by
  induction n generalizing t k with
  | zero =>
      cases hu
      exact List.prefix_refl _
  | succ n ih =>
      rw [appendSelfView] at hu
      split at hu
      · cases hu
      · obtain ⟨c, -, hu⟩ := bind_eq_ok.mp hu
        obtain ⟨v, hv, hu⟩ := bind_eq_ok.mp hu
        exact (appendChar_written hv).trans (ih hu)

theorem call_written {op : Op} (hu : call r t op = .ok u) : t.written <+: u.written := by
  cases op with
  | text s => exact append_written hu
  | self back =>
      obtain ⟨s, -, hu⟩ := bind_eq_ok.mp hu
      split at hu
      · exact append_written hu
      · cases hu
  | char c hc => exact appendChar_written hu
  | view s => exact appendView_written hu
  | selfView back n => exact appendSelfView_written hu
  | fromi n =>
      obtain ⟨s, -, hu⟩ := bind_eq_ok.mp hu
      exact (List.prefix_append ..).trans (appendView_written (t := reset t) hu)
  | fromu n =>
      obtain ⟨s, -, hu⟩ := bind_eq_ok.mp hu
      exact (List.prefix_append ..).trans (appendView_written (t := reset t) hu)

/-! ### Calls one after the other -/

theorem Good.calls (h : Good r t x) {ops : List Op} (hp : ProperAll r ops t) :
    ∃ u, ops.foldlM (Append.call r) t = .ok u ∧ Good r u (ops.foldl textStep x) := by
  induction ops generalizing t x with
  | nil => exact ⟨t, rfl, h⟩
  | cons op ops ih =>
      obtain ⟨u, hu, hgood⟩ := h.call hp.1
      obtain ⟨v, hv, hgood⟩ := ih hgood (hp.2 u hu)
      refine ⟨v, ?_, hgood⟩
      rw [List.foldlM_cons, hu]
      exact hv

theorem calls_written {ops : List Op} (hu : ops.foldlM (call r) t = .ok u) :
    t.written <+: u.written :=
  foldlM_inv (P := fun _ v => t.written <+: v.written)
    (fun hv hw => hv.trans (call_written hw)) (List.prefix_refl _) hu

theorem Good.properAll (h : Good r t x) {ops : List Op} (hu : ops.foldlM (Append.call r) t = .ok u)
    (hwithin : Within u.written) : ProperAll r ops t := by
  induction ops generalizing t x with
  | nil => trivial
  | cons op ops ih =>
      rw [List.foldlM_cons] at hu
      obtain ⟨v, hv, hu⟩ := bind_eq_ok.mp hu
      have hp := h.proper hv (hwithin.mono (calls_written hu))
      refine ⟨hp, fun w hw => ?_⟩
      obtain rfl := Except.ok.inj (hv.symm.trans hw)
      obtain ⟨w, hw, hgood⟩ := h.call hp
      obtain rfl := Except.ok.inj (hv.symm.trans hw)
      exact ih hgood hu

/-! ### The constructors -/

theorem holding_nil (h : KernelAllocator.InOrder r m) : Holding r m [] :=
  ⟨.nil, _, h.tenancy, fun _ hb => nomatch hb⟩

theorem good_onHeap (h : KernelAllocator.InOrder r m) (hn : n ≤ 2 ^ 27)
    (hroom : (KernelAllocator.buffers r).HasRoom n m) (hx : 0 ∉ x) (hs : x ++ [0] <+: ws)
    (hws : ws.length ≤ n) : ∃ t, onHeap r n ws x.length m = .ok t ∧ Good r t x := by
  obtain ⟨cStr, m', hm⟩ := hroom.buffer
  obtain ⟨-, hlen, hheld⟩ := (holding_nil h).alloc (by omega) hm
  refine ⟨State.write ⟨cStr, x.length, n, m', []⟩ 0 ws, by rw [onHeap, hm], ?_⟩
  exact good_write (y := []) List.nil_prefix hs hx (by simpa using hws) rfl hlen hheld nofun

/-- A constructor that returns has its buffer, and has stored this much. -/
theorem onHeap_inv (ht : onHeap r n ws k m = .ok t) :
    (KernelAllocator.buffers r).HasRoom n m ∧ ⟨n, 0, ws.length⟩ ∈ t.written := by
  rw [onHeap] at ht
  split at ht
  · cases ht
  · next hm =>
      cases ht
      exact ⟨by rw [Allocator.HasRoom, hm]; rfl, List.mem_cons_self⟩

theorem allocSize_eq (s : CStr) : (strlen s < 5 ∧ allocSize s = 5) ∨
    (5 ≤ strlen s ∧ allocSize s = (strlen s + 5) % 2 ^ 32) := by
  rcases Nat.lt_or_ge (strlen s) 5 with hs | hs
  · exact .inl ⟨hs, if_neg (Nat.not_le.mpr hs)⟩
  · exact .inr ⟨hs, if_pos hs⟩

variable {str : Option CStr}

theorem good_construct (h : KernelAllocator.InOrder r m) (hb : Built r m str) :
    ∃ t, construct r m str = .ok t ∧ Good r t (str.elim [] (·.chars)) := by
  rcases str with _ | s
  · exact good_onHeap (x := []) h (by decide) hb List.not_mem_nil ⟨[0, 0, 0, 0], rfl⟩ (by decide)
  · obtain ⟨hlen, hroom⟩ := hb
    have hcap : strlen s + 1 ≤ allocSize s ∧ allocSize s ≤ 2 ^ 27 := by
      rw [MINIMUM_STR_SIZE] at hlen
      rcases allocSize_eq s with ⟨hs, he⟩ | ⟨hs, he⟩ <;> omega
    have hmod : strlen s % 2 ^ 32 = s.chars.length := Nat.mod_eq_of_lt (by omega)
    rw [construct, hmod]
    refine good_onHeap h hcap.2 hroom s.nulFree (List.prefix_refl _) ?_
    rw [List.length_append, List.length_singleton]
    exact hcap.1

theorem built_of_within (ht : construct r m str = .ok t) (hwithin : Within t.written) :
    Built r m str := by
  rcases str with _ | s
  · exact (onHeap_inv ht).1
  · obtain ⟨hroom, hmem⟩ := onHeap_inv ht
    obtain ⟨hinside, hsize⟩ := hwithin _ hmem
    refine ⟨?_, hroom⟩
    have hinside : 0 + (s.chars ++ [0]).length ≤ allocSize s := hinside
    have hsize : allocSize s ≤ 2 ^ 27 := hsize
    rw [List.length_append, List.length_singleton, Nat.zero_add, ← strlen] at hinside
    rw [MINIMUM_STR_SIZE]
    rcases allocSize_eq s with ⟨hs, he⟩ | ⟨hs, he⟩ <;> omega

section Examples

open KernelAllocator (smallImage)

def start : Mem := KernelAllocator.init smallImage fun _ => 0

theorem start_inOrder : KernelAllocator.InOrder smallImage start :=
  ⟨_, init_heap _⟩

/-- A block in use leaves room for 14 bytes. -/
def fullHeap : Mem := ((KernelAllocator.buffers smallImage).alloc 33554400 start).2

/-- `a`. -/
def letter : Op := .char 97 (by decide)

theorem room_start : (KernelAllocator.buffers smallImage).HasRoom MINIMUM_STR_SIZE start := by
  decide +kernel

theorem run_fullHeap : (run smallImage fullHeap none (List.replicate 5 letter)).isOk = false := by
  decide +kernel

end Examples

end RivOS.Lib.Append
