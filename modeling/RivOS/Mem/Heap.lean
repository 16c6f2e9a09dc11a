import RivOS.Mem.Alloc
import RivOS.Support.FirstFit

/-!
# Mem — The block list

What `KernelAllocator` keeps in memory is a list of blocks (`Listed`) that tile a prefix of the heap
(`Heap`), and on them `alloc` and `free` are the operations of a first-fit arena.

* `alloc_cases`: all that `alloc` can do.  Without room for the request (`RoomFor`) the sum in its
  test wraps around, and it hands out a block that does too.
* `free_heap`: what `free` does.
-/

namespace RivOS

open FirstFit (Block)

variable {m m' : Mem} {a p e n : Nat} {bs cs : List Block} {b t : Block} {v : Bool}

/-! ### Headers in memory -/

namespace HeapBlock

theorem congr (h : ∀ x, p ≤ x → x < p + sizeof → m' x = m x) :
    size m' p = size m p ∧ inUse m' p = inUse m p ∧ next m' p = next m p := by
  simp only [sizeof] at h
  refine ⟨readLE_congr fun x _ _ => h x (by omega) (by omega), ?_,
    readLE_congr fun x _ _ => h x (by omega) (by omega)⟩
  rw [inUse, inUse, h (p + 4) (by omega) (by omega)]

theorem setInUse_self : size (setInUse m p v) p = size m p ∧ inUse (setInUse m p v) p = v ∧
    next (setInUse m p v) p = next m p := by
  refine ⟨readLE_congr fun x _ _ => Function.update_of_ne (by omega) .., ?_,
    readLE_congr fun x _ _ => Function.update_of_ne (by omega) ..⟩
  cases v <;> simp [inUse, setInUse, Bool.toUInt8]

theorem setNext_self (he : e < 2 ^ 32) : size (setNext m p e) p = size m p ∧
    inUse (setNext m p e) p = inUse m p ∧ next (setNext m p e) p = e := by
  refine ⟨readLE_writeLE_disjoint (.inl (by omega)), ?_, ?_⟩
  · rw [inUse, inUse, setNext, writeLE_of_not_mem (.inl (by omega))]
  · rw [next, setNext, readLE_writeLE]
    exact Nat.mod_eq_of_lt he

theorem setSize_self (hn : n < 2 ^ 32) : size (setSize m p n) p = n ∧
    inUse (setSize m p n) p = inUse m p ∧ next (setSize m p n) p = next m p := by
  refine ⟨?_, ?_, readLE_writeLE_disjoint (.inr (by omega))⟩
  · rw [size, setSize, readLE_writeLE]
    exact Nat.mod_eq_of_lt hn
  · rw [inUse, inUse, setSize, writeLE_of_not_mem (.inr (by omega))]

/-- The setters write to the header only. -/
theorem set_of_not_mem {x : Nat} (h : x < p ∨ p + sizeof ≤ x) :
    setInUse m p v x = m x ∧ setNext m p e x = m x ∧ setSize m p n x = m x := by
  simp only [sizeof] at h
  exact ⟨Function.update_of_ne (by omega) .., writeLE_of_not_mem (by omega),
    writeLE_of_not_mem (by omega)⟩

end HeapBlock

/-! ### The list -/

open HeapBlock (sizeof)

/-- Following `next` from `a` to `nullptr` gives the blocks `bs`. -/
def Listed (m : Mem) : Nat → List Block → Prop
  | a, [] => a = 0
  | a, b :: bs => a ≠ 0 ∧ b.addr = a ∧ HeapBlock.size m a = b.size ∧
      HeapBlock.inUse m a = b.inUse ∧ Listed m (HeapBlock.next m a) bs

theorem Listed.unique : ∀ {a bs cs}, Listed m a bs → Listed m a cs → bs = cs
  | _, [], [], _, _ => rfl
  | _, [], _ :: _, h, h' => absurd h h'.1
  | _, _ :: _, [], h, h' => absurd h' h.1
  | _, b :: bs, c :: cs, ⟨_, h₁, h₂, h₃, h⟩, ⟨_, h₁', h₂', h₃', h'⟩ => by
      have hbc : b = c := by
        cases b; cases c
        simp only [FirstFit.Block.mk.injEq]
        exact ⟨h₁.trans h₁'.symm, h₂.symm.trans h₂', h₃.symm.trans h₃'⟩
      rw [hbc, h.unique h']

theorem Listed.congr (hl : Listed m a bs)
    (h : ∀ b ∈ bs, ∀ x, b.addr ≤ x → x < b.addr + sizeof → m' x = m x) : Listed m' a bs := by
  induction bs generalizing a with
  | nil => exact hl
  | cons b bs ih =>
      obtain ⟨h0, rfl, hs, hu, hl⟩ := hl
      obtain ⟨hs', hu', hn'⟩ := HeapBlock.congr (h b List.mem_cons_self)
      refine ⟨h0, rfl, hs'.trans hs, hu'.trans hu, ?_⟩
      rw [hn']
      exact ih hl fun c hc => h c (.tail b hc)

theorem Listed.header (hl : Listed m a bs) (hb : b ∈ bs) :
    HeapBlock.size m b.addr = b.size ∧ HeapBlock.inUse m b.addr = b.inUse := by
  induction bs generalizing a with
  | nil => cases hb
  | cons c bs ih =>
      obtain ⟨-, rfl, hs, hu, hl⟩ := hl
      rcases List.mem_cons.mp hb with rfl | hb
      · exact ⟨hs, hu⟩
      · exact ih hl hb

/-- Marking a block marks it in the list. -/
theorem Listed.setUse (hl : Listed m a bs)
    (hp : ∀ b ∈ bs, b.addr = p ∨ p + sizeof ≤ b.addr ∨ b.addr + sizeof ≤ p) :
    Listed (HeapBlock.setInUse m p v) a (FirstFit.setUse p v bs) := by
  induction bs generalizing a with
  | nil => exact hl
  | cons b bs ih =>
      obtain ⟨h0, rfl, hs, hu, hl⟩ := hl
      have ih := ih hl fun c hc => hp c (.tail b hc)
      rw [FirstFit.setUse, List.map_cons]
      by_cases hb : b.addr = p
      · obtain ⟨hs', hu', hn'⟩ := HeapBlock.setInUse_self (m := m) (p := b.addr) (v := v)
        rw [if_pos hb]
        subst hb
        exact ⟨h0, rfl, hs'.trans hs, hu', hn' ▸ ih⟩
      · have frame : ∀ x, b.addr ≤ x → x < b.addr + sizeof → HeapBlock.setInUse m p v x = m x :=
          fun x _ _ => (HeapBlock.set_of_not_mem (e := 0) (n := 0) (by
            have := (hp b List.mem_cons_self).resolve_left hb
            omega)).1
        obtain ⟨hs', hu', hn'⟩ := HeapBlock.congr frame
        rw [if_neg hb]
        exact ⟨h0, rfl, hs'.trans hs, hu'.trans hu, hn' ▸ ih⟩

/-- Setting the link of the last block appends the list it points to. -/
theorem Listed.setNext (hl : Listed m a (bs ++ [t])) (he : e < 2 ^ 32) (hcs : Listed m e cs)
    (hd : ∀ b ∈ bs ++ cs, t.addr + sizeof ≤ b.addr ∨ b.addr + sizeof ≤ t.addr) :
    Listed (HeapBlock.setNext m t.addr e) a (bs ++ t :: cs) := by
  have frame : ∀ b ∈ bs ++ cs, ∀ x, b.addr ≤ x → x < b.addr + sizeof →
      HeapBlock.setNext m t.addr e x = m x := fun b hb x _ _ =>
    (HeapBlock.set_of_not_mem (v := true) (n := 0) (by have := hd b hb; omega)).2.1
  induction bs generalizing a with
  | nil =>
      obtain ⟨h0, rfl, hs, hu, -⟩ := hl
      obtain ⟨hs', hu', hn'⟩ := HeapBlock.setNext_self (m := m) (p := t.addr) he
      refine ⟨h0, rfl, hs'.trans hs, hu'.trans hu, ?_⟩
      rw [hn']
      exact hcs.congr frame
  | cons b bs ih =>
      obtain ⟨h0, rfl, hs, hu, hl⟩ := hl
      obtain ⟨hs', hu', hn'⟩ := HeapBlock.congr (frame b List.mem_cons_self)
      refine ⟨h0, rfl, hs'.trans hs, hu'.trans hu, ?_⟩
      rw [hn']
      exact ih hl (fun c hc => hd c (.tail b hc)) fun c hc => frame c (.tail b hc)

/-- The loop of `alloc` stops at the first block that fits, or at the last block. -/
theorem allocFrom_eq (r : HeapRegion) {fuel : Nat} (hl : Listed m a (bs ++ [t]))
    (hf : bs.length < fuel) :
    KernelAllocator.allocFrom r n fuel a m =
      match (bs ++ [t]).find? (Block.fits n) with
      | some b => some (some ((b.addr + sizeof) % 2 ^ 32), HeapBlock.setInUse m b.addr true)
      | none => some (KernelAllocator.extend r n t.addr m) := by
  induction bs generalizing a fuel with
  | nil =>
      obtain ⟨fuel, rfl⟩ : ∃ k, fuel = k + 1 := ⟨fuel - 1, by simp at hf; omega⟩
      obtain ⟨-, rfl, hs, hu, hn⟩ := hl
      rw [KernelAllocator.allocFrom, hs, hu, show HeapBlock.next m t.addr = 0 from hn]
      change (if Block.fits n t = true then _ else _) = _
      by_cases hfit : Block.fits n t = true <;> simp [hfit]
  | cons b bs ih =>
      obtain ⟨fuel, rfl⟩ : ∃ k, fuel = k + 1 := ⟨fuel - 1, by omega⟩
      obtain ⟨-, rfl, hs, hu, hl⟩ := hl
      have hne : HeapBlock.next m b.addr ≠ 0 := by
        cases bs with
        | nil => exact hl.1
        | cons c bs => exact hl.1
      rw [KernelAllocator.allocFrom, hs, hu, if_neg hne]
      change (if Block.fits n b = true then _ else _) = _
      by_cases hfit : Block.fits n b = true
      · simp [hfit]
      · rw [if_neg hfit, ih hl (by simpa using hf), List.cons_append, List.find?_cons_of_neg hfit]

/-! ### The heap -/

/-- The blocks `bs` are the list, and they tile a prefix of the heap; the first is the super block,
which nobody gets. -/
structure Heap (r : HeapRegion) (m : Mem) (bs : List Block) : Prop where
  listed : Listed m r.heapStart bs
  tiled : FirstFit.Tiled sizeof r.heapStart bs
  super : bs.head? = some ⟨r.heapStart, 0, true⟩
  fits : FirstFit.finish sizeof r.heapStart bs ≤ r.heapEnd

variable {r : HeapRegion}

theorem init_heap (m : Mem) : Heap r (KernelAllocator.init r m) [⟨r.heapStart, 0, true⟩] := by
  have himage := r.image
  have hsize := r.size
  refine ⟨⟨by omega, rfl, ?_, ?_, ?_⟩, ⟨rfl, trivial⟩, rfl, ?_⟩
  · rw [KernelAllocator.init, (HeapBlock.setNext_self (by omega)).1, HeapBlock.setInUse_self.1,
      (HeapBlock.setSize_self (by omega)).1]
  · rw [KernelAllocator.init, (HeapBlock.setNext_self (by omega)).2.1, HeapBlock.setInUse_self.2.1]
  · exact (HeapBlock.setNext_self (by omega)).2.2
  · simp only [FirstFit.finish, FirstFit.Block.stop, sizeof]
    omega

namespace Heap

/-- Every block is inside the heap, and far from the end of the address space. -/
theorem block_bounds (hh : Heap r m bs) (hb : b ∈ bs) :
    r.heapStart ≤ b.addr ∧ b.stop sizeof ≤ r.heapEnd ∧ r.heapEnd < 2 ^ 32 - 2 ^ 31 := by
  obtain ⟨h₁, h₂⟩ := hh.tiled.bounds hb
  have := hh.fits
  have := r.memory
  exact ⟨h₁, by omega, by omega⟩

/-- Marking one of the blocks. -/
theorem mark (hh : Heap r m bs) (hb : b ∈ bs) (hne : b.addr ≠ r.heapStart) :
    Heap r (HeapBlock.setInUse m b.addr v) (FirstFit.setUse b.addr v bs) := by
  refine ⟨hh.listed.setUse fun c hc => ?_, hh.tiled.setUse, ?_, ?_⟩
  · by_cases hcb : c = b
    · exact .inl (by rw [hcb])
    · have := hh.tiled.separate hc hb hcb
      simp only [Block.stop] at this
      omega
  · have hs := hh.super
    cases bs with
    | nil => cases hs
    | cons c bs =>
        obtain rfl := Option.some.inj hs
        simp only [FirstFit.setUse, List.map_cons, List.head?_cons, if_neg (Ne.symm hne)]
  · rw [FirstFit.finish_setUse]
    exact hh.fits

/-- The header of a new block is written behind the last one. -/
theorem header_new (hn : n < 2 ^ 32) : let m₁ := HeapBlock.setInUse m e true
    let m₃ := HeapBlock.setSize (HeapBlock.setNext m₁ e 0) e n
    (HeapBlock.size m₃ e = n ∧ HeapBlock.inUse m₃ e = true ∧ HeapBlock.next m₃ e = 0) ∧
      ∀ x, x < e ∨ e + sizeof ≤ x → m₃ x = m x := by
  refine ⟨?_, fun x hx => ?_⟩
  · obtain ⟨hs, hu, hl⟩ := HeapBlock.setSize_self
      (m := HeapBlock.setNext (HeapBlock.setInUse m e true) e 0) (p := e) hn
    obtain ⟨-, hu', hl'⟩ := HeapBlock.setNext_self (m := HeapBlock.setInUse m e true) (p := e)
      (e := 0) (by omega)
    exact ⟨hs, hu.trans (hu'.trans HeapBlock.setInUse_self.2.1), hl.trans hl'⟩
  · rw [(HeapBlock.set_of_not_mem (v := true) (e := 0) hx).2.2,
      (HeapBlock.set_of_not_mem (v := true) (n := 0) hx).2.1,
      (HeapBlock.set_of_not_mem (e := 0) (n := 0) hx).1]

/-- A new block behind the last one; only the two headers are written. -/
theorem append (hh : Heap r m (bs ++ [t])) (hfits : t.stop sizeof + sizeof + n ≤ r.heapEnd) :
    ∃ m', KernelAllocator.extend r n t.addr m = (some (t.stop sizeof + sizeof), m') ∧
      Heap r m' (bs ++ [t] ++ [⟨t.stop sizeof, n, true⟩]) ∧
      ∀ x, m' x ≠ m x → t.addr ≤ x ∧ x < t.addr + sizeof ∨
        t.stop sizeof ≤ x ∧ x < t.stop sizeof + sizeof := by
  have ht : t ∈ bs ++ [t] := by simp
  obtain ⟨hlo, -, hhi⟩ := hh.block_bounds ht
  have hsize : t.addr + sizeof + HeapBlock.size m t.addr = t.stop sizeof := by
    rw [(hh.listed.header ht).1, Block.stop]
  obtain ⟨⟨hs, hu, hn0⟩, hframe⟩ := header_new (m := m) (e := t.stop sizeof) (n := n) (by omega)
  -- the new header lies behind the last block, so no old header is touched but the last one's `next`
  set m₃ := HeapBlock.setSize (HeapBlock.setNext (HeapBlock.setInUse m (t.stop sizeof) true)
    (t.stop sizeof) 0) (t.stop sizeof) n
  have hfinish : FirstFit.finish sizeof r.heapStart (bs ++ [t]) = t.stop sizeof :=
    FirstFit.finish_concat
  refine ⟨HeapBlock.setNext m₃ t.addr (t.stop sizeof), ?_, ⟨?_, ?_, ?_, ?_⟩, fun x hx => ?_⟩
  · simp only [KernelAllocator.extend, hsize]
    rw [Nat.mod_eq_of_lt (by omega : t.stop sizeof < 2 ^ 32), Nat.mod_eq_of_lt (by omega),
      Nat.mod_eq_of_lt (by omega), if_neg (by omega)]
  · rw [List.append_assoc]
    refine Listed.setNext (hh.listed.congr fun c hc x _ hx => hframe x (.inl ?_)) (by omega)
      ⟨?_, rfl, hs, hu, hn0⟩ fun c hc => ?_
    · have := (hh.tiled.bounds hc).2
      rw [hfinish, Block.stop] at this
      omega
    · have := r.image
      simp only [Block.stop]
      omega
    · rcases List.mem_append.mp hc with hc | hc
      · have := (List.pairwise_append.mp hh.tiled.pairwise).2.2 c hc t (by simp)
        simp only [Block.stop] at this
        omega
      · obtain rfl := List.mem_singleton.mp hc
        exact .inl (by simp only [Block.stop]; omega)
  · exact hh.tiled.concat hfinish.symm
  · have hs := hh.super
    cases bs with
    | nil => simpa using hs
    | cons c bs => simpa using hs
  · rw [FirstFit.finish_concat]
    simpa [Block.stop] using hfits
  · by_contra hne
    rw [(HeapBlock.set_of_not_mem (v := true) (n := 0) (by omega)).2.1, hframe x (by omega)] at hx
    exact hx rfl

/-- The super block is in use. -/
theorem addr_ne_of_free (hh : Heap r m bs) (hb : b ∈ bs) (hu : b.inUse = false) :
    b.addr ≠ r.heapStart := by
  intro e
  have hs := List.mem_of_mem_head? hh.super
  rw [hh.tiled.eq_of_addr (by decide) hb hs e] at hu
  cases hu

/-- The new block would end below `2 ^ 32`, or wrap around to an end that is still refused; or no
new block is needed. -/
def RoomFor (r : HeapRegion) (n : Nat) (bs : List Block) : Prop :=
  (∃ b ∈ bs, b.fits n = true) ∨
    FirstFit.finish sizeof r.heapStart bs + sizeof + n < 2 ^ 32 ∨
    2 ^ 32 + r.heapEnd < FirstFit.finish sizeof r.heapStart bs + sizeof + n

/-- All that `alloc` can do: take a free block, refuse, or add a block; without room it hands out
a block that wraps around. -/
theorem alloc_cases (hh : Heap r m bs) (hn : n < 2 ^ 32) {fuel : Nat} (hf : bs.length ≤ fuel) :
    ∃ p m', KernelAllocator.alloc r n fuel m = some (p, m') ∧
      ((RoomFor r n bs ∧
          ((∃ b ∈ bs, b.fits n = true ∧ p = some (b.payload sizeof) ∧
              m' = HeapBlock.setInUse m b.addr true ∧
              Heap r m' (FirstFit.setUse b.addr true bs)) ∨
            (p = none ∧ m' = m) ∨
            (p = some (FirstFit.finish sizeof r.heapStart bs + sizeof) ∧
              Heap r m' (bs ++ [⟨FirstFit.finish sizeof r.heapStart bs, n, true⟩])))) ∨
        (¬ RoomFor r n bs ∧ p = some (FirstFit.finish sizeof r.heapStart bs + sizeof))) := by
  obtain ⟨bs, t, rfl⟩ : ∃ bs' t, bs = bs' ++ [t] := by
    rcases List.eq_nil_or_concat bs with rfl | ⟨bs', t, rfl⟩
    · cases hh.super
    · exact ⟨bs', t, List.concat_eq_append⟩
  rw [KernelAllocator.alloc, allocFrom_eq r hh.listed (Nat.lt_of_succ_le (by simpa using hf))]
  have h9 : sizeof = 9 := rfl
  cases hfind : (bs ++ [t]).find? (Block.fits n) with
  | some b =>
      -- a free block that fits: it is taken whole
      have hb := List.mem_of_find?_eq_some hfind
      have hfit := List.find?_some hfind
      obtain ⟨hlo, hhi, hlt⟩ := hh.block_bounds hb
      simp only [Block.stop] at hhi
      refine ⟨_, _, rfl, .inl ⟨.inl ⟨b, hb, hfit⟩, .inl ⟨b, hb, hfit, ?_, rfl,
        hh.mark hb (hh.addr_ne_of_free hb ?_)⟩⟩⟩
      · rw [Nat.mod_eq_of_lt (by omega), Block.payload]
      · simpa using (Bool.and_eq_true_iff.mp hfit).1
  | none =>
      have ht : t ∈ bs ++ [t] := by simp
      obtain ⟨hlo, hhi, hlt⟩ := hh.block_bounds ht
      -- no block fits: `extend` behind the last one, if its sum stays below the end of the heap
      have hnofit : ¬ ∃ b ∈ bs ++ [t], b.fits n = true := by
        rintro ⟨b, hb, hfit⟩
        exact List.find?_eq_none.mp hfind b hb hfit
      have hsize : t.addr + sizeof + HeapBlock.size m t.addr = t.stop sizeof := by
        rw [(hh.listed.header ht).1, Block.stop]
      have hfinish : FirstFit.finish sizeof r.heapStart (bs ++ [t]) = t.stop sizeof :=
        FirstFit.finish_concat
      have hmod : t.stop sizeof % 2 ^ 32 = t.stop sizeof := Nat.mod_eq_of_lt (by omega)
      rw [RoomFor, hfinish]
      by_cases hend : (t.stop sizeof + sizeof + n) % 2 ^ 32 > r.heapEnd
      · refine ⟨none, m, ?_, .inl ⟨.inr (by omega), .inr (.inl ⟨rfl, rfl⟩)⟩⟩
        simp only [KernelAllocator.extend, hsize, hmod, if_pos hend]
      · by_cases hwrap : t.stop sizeof + sizeof + n < 2 ^ 32
        · rw [Nat.mod_eq_of_lt hwrap] at hend
          obtain ⟨m', he, hh', -⟩ := hh.append (n := n) (by omega)
          exact ⟨_, m', by rw [he], .inl ⟨.inr (.inl hwrap), .inr (.inr ⟨rfl, hh'⟩)⟩⟩
        · refine ⟨some (t.stop sizeof + sizeof), (KernelAllocator.extend r n t.addr m).2, ?_,
            .inr ⟨?_, rfl⟩⟩
          · simp only [KernelAllocator.extend, hsize, hmod, if_neg hend]
            rw [Nat.mod_eq_of_lt (by omega)]
          -- the sum has wrapped around: none of the three kinds of room is there
          · rintro (h | h | h)
            · exact hnofit h
            · omega
            · omega

/-- `free` marks the block of its pointer. -/
theorem free_heap (hh : Heap r m bs) (hb : b ∈ bs) (hne : b.addr ≠ r.heapStart) :
    KernelAllocator.free (b.payload sizeof) m = HeapBlock.setInUse m b.addr false ∧
      Heap r (KernelAllocator.free (b.payload sizeof) m) (FirstFit.setUse b.addr false bs) := by
  obtain ⟨-, hhi, hlt⟩ := hh.block_bounds hb
  have heq : KernelAllocator.free (b.payload sizeof) m = HeapBlock.setInUse m b.addr false := by
    simp only [Block.stop] at hhi
    rw [KernelAllocator.free, Block.payload,
      show (b.addr + sizeof + 2 ^ 32 - sizeof) % 2 ^ 32 = b.addr by omega]
  exact ⟨heq, heq ▸ hh.mark hb hne⟩

/-- A store into a payload touches no header. -/
theorem store (hh : Heap r m bs) (hb : b ∈ bs) {x : Nat} {w : UInt8}
    (hlo : b.payload sizeof ≤ x) (hhi : x < b.stop sizeof) :
    Heap r (Function.update m x w) bs where
  __ := hh
  listed := hh.listed.congr fun c hc y _ _ => Function.update_of_ne (by
    simp only [Block.payload, Block.stop] at hlo hhi
    by_cases hcb : c = b
    · subst hcb
      omega
    · have := hh.tiled.separate hc hb hcb
      simp only [Block.stop] at this
      omega) ..

end Heap

end RivOS
