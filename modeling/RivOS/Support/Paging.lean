import RivOS.Support.Memory

/-!
# Support — Paging

Memory seen through an address space: a 32-bit address, a partial map from pages to frames, and
the physical bytes behind it.

* `PageMap.phys_inj_near`: two addresses less than a page apart never share a physical byte,
  whatever the map is.
* `storeV_spec`: a store is read back where its bytes do not alias, and changes no other byte.
* `load32_store32`, `Words.store32`: a dword is read back, and the dwords less than a page above it
  are untouched; `Words.congr`: dwords depend on no byte but their own (`Places`).
* `Words.set`: one of some dwords is stored; `Words.kept`: dwords under another map.
-/

namespace RivOS

abbrev Word := BitVec 32

/-- The frame of a page, where it has one. -/
abbrev PageMap := Nat → Option Nat

variable {pm : PageMap} {m m' : Mem} {a b v w : Word} {bs : List UInt8} {ws : List Word}
  {i k n x : Nat}

/-- The physical byte of an address. -/
def PageMap.phys (pm : PageMap) (a : Word) : Option Nat :=
  (pm (a.toNat / 4096)).map fun f => f * 4096 + a.toNat % 4096

theorem PageMap.phys_eq_some :
    pm.phys a = some x ↔ ∃ f, pm (a.toNat / 4096) = some f ∧ f * 4096 + a.toNat % 4096 = x := by
  simp [PageMap.phys]

/-- Addresses less than a page apart lie in distinct pages or at distinct places of one page. -/
theorem PageMap.phys_inj_near (ha : pm.phys a = some x) (hb : pm.phys b = some x)
    (hnear : (b - a).toNat < 4096) : a = b := by
  obtain ⟨f, -, hf⟩ := phys_eq_some.mp ha
  obtain ⟨g, -, hg⟩ := phys_eq_some.mp hb
  have hoff : a.toNat % 4096 = b.toNat % 4096 := by omega
  bv_omega

/-! ### Bytes -/

/-- The byte at an address. -/
def byteV (pm : PageMap) (m : Mem) (a : Word) : Option UInt8 := (pm.phys a).map m

/-- The `n` bytes at an address. -/
def loadV (pm : PageMap) (m : Mem) : Word → Nat → Option (List UInt8)
  | _, 0 => some []
  | a, n + 1 => do
      let b ← byteV pm m a
      let bs ← loadV pm m (a + 1) n
      return b :: bs

/-- Store bytes from an address on; an unmapped page is a fault. -/
def storeV (pm : PageMap) (m : Mem) : Word → List UInt8 → Option Mem
  | _, [] => some m
  | a, b :: bs => do
      let p ← pm.phys a
      storeV pm (Function.update m p b) (a + 1) bs

theorem word_add_succ (a : Word) (i : Nat) :
    a + BitVec.ofNat 32 (i + 1) = a + 1 + BitVec.ofNat 32 i := by
  rw [Nat.add_comm, BitVec.ofNat_add, ← BitVec.add_assoc]
  rfl

theorem loadV_congr (h : ∀ i < n, byteV pm m' (a + BitVec.ofNat 32 i) =
    byteV pm m (a + BitVec.ofNat 32 i)) : loadV pm m' a n = loadV pm m a n := by
  induction n generalizing a with
  | zero => rfl
  | succ n ih =>
      have hhead : byteV pm m' a = byteV pm m a := by simpa using h 0 (Nat.succ_pos n)
      have htail := ih fun i hi => by simpa only [word_add_succ] using h (i + 1) (by omega)
      rw [loadV, loadV, hhead, htail]

/-- The bytes of a load, one by one. -/
theorem loadV_eq_some : loadV pm m a bs.length = some bs ↔
    ∀ i (h : i < bs.length), byteV pm m (a + BitVec.ofNat 32 i) = some bs[i] := by
  induction bs generalizing a with
  | nil => simp [loadV]
  | cons b bs ih =>
      have hcons : loadV pm m a (b :: bs).length = some (b :: bs) ↔
          byteV pm m a = some b ∧ loadV pm m (a + 1) bs.length = some bs := by
        rw [List.length_cons, loadV]
        cases byteV pm m a <;> cases loadV pm m (a + 1) bs.length <;> simp
      rw [hcons, ih]
      constructor
      · rintro ⟨h, ht⟩ i hi
        cases i with
        | zero => simpa using h
        | succ i =>
            rw [word_add_succ]
            exact ht i (Nat.lt_of_succ_lt_succ hi)
      · intro h
        refine ⟨by simpa using h 0 (Nat.succ_pos _), fun i hi => ?_⟩
        rw [← word_add_succ]
        exact h (i + 1) (Nat.succ_lt_succ hi)

/-- A store leaves the bytes alone that none of its addresses has. -/
theorem storeV_of_not_mem (h : storeV pm m a bs = some m')
    (hx : ∀ i < bs.length, pm.phys (a + BitVec.ofNat 32 i) ≠ some x) : m' x = m x := by
  induction bs generalizing a m with
  | nil => cases h; rfl
  | cons b bs ih =>
      obtain ⟨p, hp, h⟩ := Option.bind_eq_some_iff.mp h
      have hne : x ≠ p := by
        rintro rfl
        exact hx 0 (Nat.succ_pos _) (by simpa using hp)
      have htail := ih h fun i hi => by
        simpa only [word_add_succ] using hx (i + 1) (Nat.succ_lt_succ hi)
      rw [htail, Function.update_of_ne hne]

/-- Every byte of a store whose addresses do not alias is there afterwards. -/
theorem byteV_storeV (h : storeV pm m a bs = some m')
    (hinj : ∀ i < bs.length, ∀ j < bs.length, ∀ x, pm.phys (a + BitVec.ofNat 32 i) = some x →
      pm.phys (a + BitVec.ofNat 32 j) = some x → i = j) (hi : i < bs.length) :
    byteV pm m' (a + BitVec.ofNat 32 i) = some bs[i] := by
  induction bs generalizing a m i with
  | nil => exact absurd hi (Nat.not_lt_zero _)
  | cons b bs ih =>
      obtain ⟨p, hp, h⟩ := Option.bind_eq_some_iff.mp h
      cases i with
      | zero =>
          have hp' : pm.phys (a + BitVec.ofNat 32 0) = some p := by simpa using hp
          -- the later bytes of the store go elsewhere
          have hlast : m' p = Function.update m p b p := storeV_of_not_mem h fun j hj hx => by
            rw [← word_add_succ] at hx
            exact absurd (hinj 0 (Nat.succ_pos _) (j + 1) (Nat.succ_lt_succ hj) p hp' hx)
              (Nat.succ_ne_zero j).symm
          rw [byteV, hp', Option.map_some, hlast, Function.update_self]
          rfl
      | succ i =>
          rw [word_add_succ]
          refine ih h (fun i hi j hj x hxi hxj => ?_) (Nat.lt_of_succ_lt_succ hi)
          rw [← word_add_succ] at hxi hxj
          exact Nat.succ.inj (hinj (i + 1) (Nat.succ_lt_succ hi) (j + 1) (Nat.succ_lt_succ hj) x
            hxi hxj)

/-- A store comes to its end where all its addresses are mapped. -/
theorem storeV_ok (h : ∀ i < bs.length, ∃ x, pm.phys (a + BitVec.ofNat 32 i) = some x) :
    ∃ m', storeV pm m a bs = some m' := by
  induction bs generalizing a m with
  | nil => exact ⟨m, rfl⟩
  | cons b bs ih =>
      obtain ⟨p, hp⟩ := h 0 (Nat.succ_pos _)
      have hp : pm.phys a = some p := by simpa using hp
      obtain ⟨m', hm'⟩ := ih (a := a + 1) (m := Function.update m p b) fun i hi => by
        rw [← word_add_succ]
        exact h (i + 1) (Nat.succ_lt_succ hi)
      exact ⟨m', by rw [storeV, hp]; exact hm'⟩

/-! ### Dwords -/

def load32 (pm : PageMap) (m : Mem) (a : Word) : Option Word :=
  (loadV pm m a 4).map fun bs => BitVec.ofNat 32 (ofLE bs)

def store32 (pm : PageMap) (m : Mem) (a v : Word) : Option Mem := storeV pm m a (toLE 4 v.toNat)

/-- The dwords `ws` stand from `a` upwards. -/
def Words (pm : PageMap) (m : Mem) : Word → List Word → Prop
  | _, [] => True
  | a, w :: ws => load32 pm m a = some w ∧ Words pm m (a + 4) ws

/-- The `n` dwords from `a` upwards. -/
def loadWords (pm : PageMap) (m : Mem) : Word → Nat → Option (List Word)
  | _, 0 => some []
  | a, n + 1 => do
      let w ← load32 pm m a
      let ws ← loadWords pm m (a + 4) n
      return w :: ws

theorem Words.loadWords (h : Words pm m a ws) : loadWords pm m a ws.length = some ws := by
  induction ws generalizing a with
  | nil => rfl
  | cons w ws ih =>
      rw [List.length_cons, RivOS.loadWords, h.1, ih h.2]
      rfl

/-- The physical bytes of the `n` addresses from `a` upwards. -/
def Places (pm : PageMap) (a : Word) (n x : Nat) : Prop :=
  ∃ i < n, pm.phys (a + BitVec.ofNat 32 i) = some x

theorem Places.mono (h : Places pm (a + BitVec.ofNat 32 k) n x) {n' : Nat} (hn : k + n ≤ n') :
    Places pm a n' x := by
  obtain ⟨i, hi, hx⟩ := h
  rw [BitVec.add_assoc, ← BitVec.ofNat_add] at hx
  exact ⟨k + i, by omega, hx⟩

theorem load32_congr (h : ∀ x, Places pm a 4 x → m' x = m x) : load32 pm m' a = load32 pm m a := by
  rw [load32, load32, loadV_congr fun i hi => ?_]
  rw [byteV, byteV]
  cases hx : pm.phys (a + BitVec.ofNat 32 i) with
  | none => rfl
  | some x => rw [Option.map_some, Option.map_some, h x ⟨i, hi, hx⟩]

theorem Words.congr (hw : Words pm m a ws)
    (h : ∀ x, Places pm a (4 * ws.length) x → m' x = m x) : Words pm m' a ws := by
  induction ws generalizing a with
  | nil => trivial
  | cons w ws ih =>
      obtain ⟨hhead, htail⟩ := hw
      rw [List.length_cons] at h
      refine ⟨(load32_congr fun x hx => ?_).trans hhead, ih htail fun x hx => ?_⟩
      · obtain ⟨i, hi, hx⟩ := hx
        exact h x ⟨i, by omega, hx⟩
      · obtain ⟨i, hi, hx⟩ := hx
        have hnext : a + 4 + BitVec.ofNat 32 i = a + BitVec.ofNat 32 (4 + i) := by
          rw [BitVec.ofNat_add, ← BitVec.add_assoc]
          rfl
        rw [hnext] at hx
        exact h x ⟨4 + i, by omega, hx⟩

/-- A store changes its own bytes only. -/
theorem store32_of_not_mem (h : store32 pm m a v = some m') (hx : ¬ Places pm a 4 x) :
    m' x = m x :=
  storeV_of_not_mem h fun i hi hxi => hx ⟨i, by rwa [length_toLE] at hi, hxi⟩

theorem word_offset_sub (a : Word) {i j : Nat} (hij : i ≤ j) (hj : j < 4096) :
    (a + BitVec.ofNat 32 j - (a + BitVec.ofNat 32 i)).toNat < 4096 := by
  bv_omega

theorem word_offset_inj {a : Word} {i j : Nat} (hi : i < 4096) (hj : j < 4096)
    (h : a + BitVec.ofNat 32 i = a + BitVec.ofNat 32 j) : i = j := by
  bv_omega

/-- Within a page's length of an address, places alias only themselves. -/
theorem PageMap.offset_inj {j : Nat} (hi : i < 4096) (hj : j < 4096)
    (hpi : pm.phys (a + BitVec.ofNat 32 i) = some x)
    (hpj : pm.phys (a + BitVec.ofNat 32 j) = some x) : i = j := by
  rcases Nat.le_total i j with hij | hji
  · exact word_offset_inj hi hj (phys_inj_near hpi hpj (word_offset_sub a hij hj))
  · exact (word_offset_inj hj hi (phys_inj_near hpj hpi (word_offset_sub a hji hi))).symm

theorem load32_store32 (h : store32 pm m a v = some m') : load32 pm m' a = some v := by
  have hbytes : loadV pm m' a (toLE 4 v.toNat).length = some (toLE 4 v.toNat) :=
    loadV_eq_some.mpr fun i hi => byteV_storeV h (fun i hi j hj x hxi hxj => by
      rw [length_toLE] at hi hj
      exact PageMap.offset_inj (by omega) (by omega) hxi hxj) hi
  rw [length_toLE] at hbytes
  rw [load32, hbytes, Option.map_some, ofLE_toLE_of_lt v.isLt, BitVec.ofNat_toNat,
    BitVec.setWidth_eq]

/-- A store passes over the dwords above it, up to a page's length. -/
theorem load32_store32_above (h : store32 pm m a v = some m') (hk : 4 ≤ k) (hk' : k + 4 ≤ 4096) :
    load32 pm m' (a + BitVec.ofNat 32 k) = load32 pm m (a + BitVec.ofNat 32 k) := by
  have hframe : loadV pm m' (a + BitVec.ofNat 32 k) 4 = loadV pm m (a + BitVec.ofNat 32 k) 4 := by
    refine loadV_congr fun i hi => ?_
    rw [BitVec.add_assoc, ← BitVec.ofNat_add, byteV, byteV]
    cases hp : pm.phys (a + BitVec.ofNat 32 (k + i)) with
    | none => rfl
    | some p =>
        have hkeep : m' p = m p := storeV_of_not_mem h fun j hj hx => by
          rw [length_toLE] at hj
          have := PageMap.offset_inj (by omega) (by omega) hp hx
          omega
        rw [Option.map_some, Option.map_some, hkeep]
  rw [load32, load32, hframe]

theorem Words.store32 (hw : Words pm m (a + BitVec.ofNat 32 k) ws)
    (h : store32 pm m a v = some m') (hk : 4 ≤ k) (hk' : k + 4 * ws.length ≤ 4096) :
    Words pm m' (a + BitVec.ofNat 32 k) ws := by
  induction ws generalizing k with
  | nil => trivial
  | cons w ws ih =>
      obtain ⟨hhead, htail⟩ := hw
      rw [List.length_cons] at hk'
      have hnext : a + BitVec.ofNat 32 k + 4 = a + BitVec.ofNat 32 (k + 4) := by
        rw [BitVec.ofNat_add, ← BitVec.add_assoc]
        rfl
      refine ⟨(load32_store32_above h hk (by omega)).trans hhead, ?_⟩
      rw [hnext] at htail ⊢
      exact ih htail (by omega) (by omega)

/-! ### Dwords, one by one -/

theorem words_iff : Words pm m a ws ↔
    ∀ i (h : i < ws.length), load32 pm m (a + BitVec.ofNat 32 (4 * i)) = some ws[i] := by
  induction ws generalizing a with
  | nil => exact iff_of_true trivial fun i h => absurd h (Nat.not_lt_zero i)
  | cons w ws ih =>
      have hnext (i : Nat) : a + BitVec.ofNat 32 (4 * (i + 1)) = a + 4 + BitVec.ofNat 32 (4 * i) := by
        rw [Nat.mul_succ, Nat.add_comm, BitVec.ofNat_add, ← BitVec.add_assoc]
        rfl
      rw [Words, ih]
      constructor
      · rintro ⟨hhead, htail⟩ i hi
        cases i with
        | zero => simpa using hhead
        | succ i =>
            rw [hnext]
            exact htail i (Nat.lt_of_succ_lt_succ hi)
      · intro h
        refine ⟨by simpa using h 0 (Nat.succ_pos _), fun i hi => ?_⟩
        rw [← hnext]
        exact h (i + 1) (Nat.succ_lt_succ hi)

theorem Words.left {vs : List Word} (hw : Words pm m a (ws ++ vs)) : Words pm m a ws := by
  induction ws generalizing a with
  | nil => trivial
  | cons w ws ih => exact ⟨hw.1, ih hw.2⟩

theorem Words.take (hw : Words pm m a ws) (n : Nat) : Words pm m a (ws.take n) := by
  rw [← List.take_append_drop n ws] at hw
  exact hw.left

/-- A store passes over the dwords next to it, up to a page's length. -/
theorem load32_store32_apart {j : Nat} (h : store32 pm m (a + BitVec.ofNat 32 j) v = some m')
    (hij : i + 4 ≤ j ∨ j + 4 ≤ i) (hi : i + 4 ≤ 4096) (hj : j + 4 ≤ 4096) :
    load32 pm m' (a + BitVec.ofNat 32 i) = load32 pm m (a + BitVec.ofNat 32 i) := by
  refine load32_congr fun x hx => store32_of_not_mem h fun hx' => ?_
  obtain ⟨k, hk, hx⟩ := hx
  obtain ⟨k', hk', hx'⟩ := hx'
  rw [BitVec.add_assoc, ← BitVec.ofNat_add] at hx hx'
  have heq := PageMap.offset_inj (by omega) (by omega) hx hx'
  omega

/-- One of some dwords is stored. -/
theorem Words.set (hw : Words pm m a ws)
    (h : RivOS.store32 pm m (a + BitVec.ofNat 32 (4 * k)) v = some m')
    (hlen : 4 * ws.length ≤ 4096) (hk : k < ws.length) : Words pm m' a (ws.set k v) := by
  rw [words_iff] at hw ⊢
  intro i hi
  rw [List.length_set] at hi
  rw [List.getElem_set]
  split
  · next hik =>
      subst hik
      exact load32_store32 h
  · next hik => rw [load32_store32_apart h (by omega) (by omega) (by omega), hw i hi]

/-! ### Mapped addresses -/

/-- The `n` addresses from `a` upwards have their places. -/
def PageMap.Maps (pm : PageMap) (a : Word) (n : Nat) : Prop :=
  ∀ i < n, ∃ x, pm.phys (a + BitVec.ofNat 32 i) = some x

theorem PageMap.Maps.part (h : pm.Maps a n) {n' : Nat} (hb : b = a + BitVec.ofNat 32 k)
    (hn : k + n' ≤ n) : pm.Maps b n' := by
  intro i hi
  rw [hb, BitVec.add_assoc, ← BitVec.ofNat_add]
  exact h (k + i) (by omega)

theorem PageMap.Maps.store32 (h : pm.Maps a 4) (m : Mem) (v : Word) :
    ∃ m', store32 pm m a v = some m' := by
  refine storeV_ok fun i hi => ?_
  rw [length_toLE] at hi
  exact h i hi

theorem length_loadV (h : loadV pm m a n = some bs) : bs.length = n := by
  induction n generalizing a bs with
  | zero =>
      cases h
      rfl
  | succ n ih =>
      obtain ⟨b, -, h⟩ := Option.bind_eq_some_iff.mp h
      obtain ⟨bs', hbs, h⟩ := Option.bind_eq_some_iff.mp h
      cases h
      rw [List.length_cons, ih hbs]

theorem maps_of_load32 (h : load32 pm m a = some w) : pm.Maps a 4 := by
  obtain ⟨bs, hbs, -⟩ := Option.map_eq_some_iff.mp h
  have hlen := length_loadV hbs
  rw [← hlen] at hbs
  intro i hi
  rw [← hlen] at hi
  obtain ⟨x, hx, -⟩ := Option.map_eq_some_iff.mp (loadV_eq_some.mp hbs i hi)
  exact ⟨x, hx⟩

/-- The addresses of two maps and memories have the same places, with the same bytes. -/
def Kept (pm pm' : PageMap) (m m' : Mem) (a : Word) (n : Nat) : Prop :=
  ∀ i < n, pm'.phys (a + BitVec.ofNat 32 i) = pm.phys (a + BitVec.ofNat 32 i) ∧
    ∀ x, pm.phys (a + BitVec.ofNat 32 i) = some x → m' x = m x

variable {pm' : PageMap}

theorem Kept.refl : Kept pm pm m m a n := fun _ _ => ⟨rfl, fun _ _ => rfl⟩

theorem Kept.places (h : Kept pm pm' m m' a n) : Places pm' a n x ↔ Places pm a n x := by
  refine exists_congr fun i => and_congr_right fun hi => ?_
  rw [(h i hi).1]

theorem Kept.loadV (h : Kept pm pm' m m' a n) : loadV pm' m' a n = loadV pm m a n := by
  induction n generalizing a with
  | zero => rfl
  | succ n ih =>
      have hhead : byteV pm' m' a = byteV pm m a := by
        obtain ⟨hphys, hmem⟩ := h 0 (Nat.succ_pos n)
        simp only [BitVec.add_zero] at hphys hmem
        rw [byteV, byteV, hphys]
        cases hx : pm.phys a with
        | none => rfl
        | some x => rw [Option.map_some, Option.map_some, hmem x hx]
      have htail := ih fun i hi => by simpa only [word_add_succ] using h (i + 1) (by omega)
      rw [RivOS.loadV, RivOS.loadV, hhead, htail]

theorem Words.kept (hw : Words pm m a ws) (h : Kept pm pm' m m' a (4 * ws.length)) :
    Words pm' m' a ws := by
  rw [words_iff] at hw ⊢
  intro i hi
  have hload : load32 pm' m' (a + BitVec.ofNat 32 (4 * i)) =
      load32 pm m (a + BitVec.ofNat 32 (4 * i)) := by
    rw [load32, load32, Kept.loadV fun j hj => ?_]
    rw [BitVec.add_assoc, ← BitVec.ofNat_add]
    exact h (4 * i + j) (by omega)
  rw [hload, hw i hi]

end RivOS
