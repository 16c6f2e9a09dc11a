import RivOS.Mem.HeapRuns

/-!
# Mem — The heap and its owners

* `Tenancy r m owner`: the heap is in order, and `owner` says whose payloads are whose, by the number
  of bytes that were asked for.  Two payloads have no byte in common (`Tenancy.disjoint`).
* `Tenancy.alloc`, `Tenancy.free`, `Tenancy.write`: what a call, or a write into an owned payload,
  does to it; in every case the other payloads keep their bytes.
-/

namespace RivOS

open FirstFit (Block)
open HeapBlock (sizeof)

namespace KernelAllocator

variable {r : HeapRegion} {m m' : Mem} {bs : List Block} {owner : Nat → Option Nat}
  {n k p q x fuel : Nat} {b c : Block}

def Tenancy (r : HeapRegion) (m : Mem) (owner : Nat → Option Nat) : Prop :=
  ∃ bs, Heap r m bs ∧ Owned r bs owner

/-- The owned payloads have in `m'` the bytes they have in `m`. -/
def Keeps (owner : Nat → Option Nat) (m m' : Mem) : Prop :=
  ∀ p n x, owner p = some n → p ≤ x → x < p + n → m' x = m x

/-- The bytes of an owned payload are the payload of its block. -/
theorem Owned.inPayload (ho : Owned r bs owner) (hp : owner p = some n) :
    ∃ b ∈ bs, b.payload sizeof = p ∧ b.addr ≠ r.heapStart ∧
      ∀ x, p ≤ x → x < p + n → b.InPayload sizeof x := by
  obtain ⟨b, hb, rfl, -, hn, hne⟩ := ho p n hp
  refine ⟨b, hb, rfl, hne, fun x hlo hhi => ⟨hlo, ?_⟩⟩
  simp only [Block.payload] at hhi
  simp only [Block.stop]
  omega

theorem Tenancy.bounds (h : Tenancy r m owner) (hp : owner p = some n) :
    r.heapStart < p ∧ p + n ≤ r.heapEnd := by
  obtain ⟨bs, hh, ho⟩ := h
  obtain ⟨b, hb, rfl, -, hn, -⟩ := ho p n hp
  obtain ⟨hlo, hhi, -⟩ := hh.block_bounds hb
  have h9 : sizeof = 9 := rfl
  simp only [Block.stop] at hhi
  simp only [Block.payload]
  omega

theorem Tenancy.disjoint (h : Tenancy r m owner) (hp : owner p = some n) (hq : owner q = some k)
    (hne : p ≠ q) (hlo : p ≤ x) (hhi : x < p + n) : ¬ (q ≤ x ∧ x < q + k) := by
  rintro ⟨hlo', hhi'⟩
  obtain ⟨bs, hh, ho⟩ := h
  obtain ⟨b, hb, rfl, -, hin⟩ := ho.inPayload hp
  obtain ⟨c, hc, rfl, -, hin'⟩ := ho.inPayload hq
  refine (hh.tiled.disjoint hb hc (hin x hlo hhi)).2 (fun hbc => hne ?_) (hin' x hlo' hhi')
  rw [hbc]

/-- A header has no byte of an owned payload. -/
theorem keeps_of_header (hh : Heap r m bs) (ho : Owned r bs owner)
    (hm : ∀ x, m' x ≠ m x → (∃ b ∈ bs, b.InHeader sizeof x) ∨
      FirstFit.finish sizeof r.heapStart bs ≤ x) : Keeps owner m m' := by
  intro p n x hp hlo hhi
  by_contra hne
  obtain ⟨b, hb, rfl, -, hin⟩ := ho.inPayload hp
  have hx := hin x hlo hhi
  rcases hm x hne with ⟨c, hc, hheader⟩ | hend
  · exact (hh.tiled.disjoint hb hc hx).1 hheader
  · have := (hh.tiled.bounds hb).2
    exact absurd (Nat.lt_of_lt_of_le hx.2 this) (Nat.not_lt.mpr hend)

/-- `alloc` writes to headers, those of the blocks and one behind the last. -/
theorem alloc_writes (hh : Heap r m bs) (hn : n < 2 ^ 32) {q : Option Nat}
    (ha : alloc r n fuel m = some (q, m')) (hx : m' x ≠ m x) :
    (∃ b ∈ bs, b.InHeader sizeof x) ∨ FirstFit.finish sizeof r.heapStart bs ≤ x ∧
      x < FirstFit.finish sizeof r.heapStart bs + sizeof := by
  obtain ⟨bs, t, rfl⟩ : ∃ bs' t, bs = bs' ++ [t] := by
    rcases List.eq_nil_or_concat bs with rfl | ⟨bs', t, rfl⟩
    · cases hh.super
    · exact ⟨bs', t, List.concat_eq_append⟩
  have hloop := allocFrom_mono ha (Nat.le_max_right (bs.length + 1) fuel)
  rw [allocFrom_eq r hh.listed (Nat.lt_of_lt_of_le (Nat.lt_succ_self _) (Nat.le_max_left ..))]
    at hloop
  have ht : t ∈ bs ++ [t] := by simp
  -- a free block's header, or the header of a new block and the one that links to it
  split at hloop
  · rename_i b hfind
    cases hloop
    refine .inl ⟨b, List.mem_of_find?_eq_some hfind, ?_⟩
    by_contra hout
    refine hx (HeapBlock.set_of_not_mem (e := 0) (n := 0) ?_).1
    simp only [Block.InHeader, Block.payload] at hout
    omega
  · obtain ⟨-, hhi, hlt⟩ := hh.block_bounds ht
    have hsize : (t.addr + sizeof + HeapBlock.size m t.addr) % 2 ^ 32 = t.stop sizeof := by
      rw [(hh.listed.header ht).1, ← Block.stop]
      exact Nat.mod_eq_of_lt (by omega)
    rw [FirstFit.finish_concat]
    by_contra hout
    have hnot : ¬ t.InHeader sizeof x ∧ ¬ (t.stop sizeof ≤ x ∧ x < t.stop sizeof + sizeof) :=
      ⟨fun h => hout (.inl ⟨t, ht, h⟩), fun h => hout (.inr h)⟩
    simp only [Block.InHeader, Block.payload] at hnot
    simp only [extend, hsize] at hloop
    split at hloop <;> cases hloop
    · exact hx rfl
    · refine hx ?_
      rw [(HeapBlock.set_of_not_mem (v := true) (n := 0) (by omega)).2.1]
      exact (Heap.header_new hn).2 x (by omega)

/-- A request of any size changes nothing but the heap, up to one header behind its end, and what it
returns is no small number. -/
theorem alloc_any (hh : Heap r m bs) (hn : n < 2 ^ 32) {q : Option Nat}
    (ha : alloc r n fuel m = some (q, m')) :
    (∀ p, q = some p → r.heapStart < p ∧ p < 2 ^ 32) ∧
      ∀ x, x < r.heapStart ∨ r.heapEnd + sizeof ≤ x → m' x = m x := by
  have h9 : sizeof = 9 := rfl
  have hfits := hh.fits
  have hmem := r.memory
  have hlow : r.heapStart ≤ FirstFit.finish sizeof r.heapStart bs := FirstFit.le_finish hh.tiled
  have hblock : ∀ b ∈ bs, r.heapStart < b.payload sizeof ∧ b.payload sizeof < 2 ^ 32 := by
    intro b hb
    obtain ⟨hlo, hhi, hlt⟩ := hh.block_bounds hb
    simp only [Block.stop] at hhi
    simp only [Block.payload]
    omega
  constructor
  · intro p hp
    rcases alloc_inv hh hn ha with ⟨-, ⟨b, hb, -, rfl, -⟩ | ⟨rfl, -⟩ | ⟨rfl, -⟩⟩ | ⟨-, rfl⟩ <;>
      cases hp
    · exact hblock b hb
    all_goals exact ⟨by omega, by omega⟩
  · intro x hx
    by_contra hne
    rcases alloc_writes hh hn ha hne with ⟨b, hb, hlo, hhi⟩ | hend
    · obtain ⟨hlo', hhi', -⟩ := hh.block_bounds hb
      simp only [Block.payload, Block.stop] at hhi hhi'
      omega
    · omega

/-- The request is one that `alloc` can serve or refuse. -/
def Room (r : HeapRegion) (n : Nat) (m : Mem) : Prop :=
  ∀ bs, Listed m r.heapStart bs → Heap.RoomFor r n bs

/-- Refused, or a payload that was nobody's. -/
theorem Tenancy.alloc_of_room {q : Option Nat} (h : Tenancy r m owner) (hroom : Room r n m)
    (hn : n < 2 ^ 32) (ha : alloc r n fuel m = some (q, m')) :
    (q = none ∧ m' = m) ∨ ∃ p, q = some p ∧ owner p = none ∧
      Tenancy r m' (Function.update owner p (some n)) ∧ Keeps owner m m' := by
  obtain ⟨bs, hh, ho⟩ := h
  have hkeeps : Keeps owner m m' := keeps_of_header hh ho fun x hx =>
    (alloc_writes hh hn ha hx).imp_right And.left
  rcases (alloc_inv hh hn ha).resolve_right fun hno => hno.1 (hroom bs hh.listed) with
    ⟨-, ⟨b, hb, hfit, rfl, rfl, hh'⟩ | hnull | ⟨rfl, hh'⟩⟩
  · -- a free block of the list
    have hfree : b.inUse = false ∧ n ≤ b.size := by simpa [Block.fits] using hfit
    exact .inr ⟨_, rfl, ho.none_of_free hh hb hfree.1, ⟨_, hh', ho.take hh hb hfit⟩, hkeeps⟩
  · exact .inl hnull
  · obtain ⟨hnone, ho'⟩ := ho.add (b := ⟨_, n, true⟩) hh rfl rfl
    exact .inr ⟨_, rfl, hnone, ⟨_, hh', ho'⟩, hkeeps⟩

theorem Tenancy.room_of_le (h : Tenancy r m owner) (hn : n ≤ 2 ^ 31) : Room r n m := by
  obtain ⟨bs, hh, -⟩ := h
  intro cs hl
  rw [hl.unique hh.listed]
  exact roomFor_of_le hh hn

theorem Tenancy.alloc_of_le {q : Option Nat} (h : Tenancy r m owner) (hn : n ≤ 2 ^ 31)
    (ha : alloc r n fuel m = some (q, m')) :
    (q = none ∧ m' = m) ∨ ∃ p, q = some p ∧ owner p = none ∧
      Tenancy r m' (Function.update owner p (some n)) ∧ Keeps owner m m' :=
  h.alloc_of_room (h.room_of_le hn) (by omega) ha

/-- A request no larger than the heap. -/
theorem Tenancy.alloc {q : Option Nat} (h : Tenancy r m owner) (hn : n ≤ r.heapEnd - r.heapStart)
    (ha : alloc r n fuel m = some (q, m')) :
    (q = none ∧ m' = m) ∨ ∃ p, q = some p ∧ owner p = none ∧
      Tenancy r m' (Function.update owner p (some n)) ∧ Keeps owner m m' :=
  h.alloc_of_le (le_of_small r hn) ha

theorem Tenancy.free (h : Tenancy r m owner) (hp : owner p = some n) :
    Tenancy r (free p m) (Function.update owner p none) ∧ Keeps owner m (KernelAllocator.free p m) := by
  obtain ⟨bs, hh, ho⟩ := h
  obtain ⟨b, hb, rfl, hne, -⟩ := ho.inPayload hp
  obtain ⟨heq, hh'⟩ := hh.free_heap hb hne
  refine ⟨⟨_, hh', ho.giveBack⟩, heq ▸ keeps_of_header hh ho fun x hx => .inl ⟨b, hb, ?_⟩⟩
  by_contra hout
  refine hx (HeapBlock.set_of_not_mem (e := 0) (n := 0) ?_).1
  simp only [Block.InHeader, Block.payload] at hout
  omega

/-- A write that leaves the headers alone. -/
theorem Tenancy.of_headers (h : Tenancy r m owner)
    (hm : ∀ bs, Heap r m bs → ∀ b ∈ bs, ∀ x, b.InHeader sizeof x → m' x = m x) :
    Tenancy r m' owner := by
  obtain ⟨bs, hh, ho⟩ := h
  exact ⟨bs, { hh with listed := hh.listed.congr fun b hb x hlo hhi => hm bs hh b hb x ⟨hlo, hhi⟩ },
    ho⟩

/-- A write into an owned payload, and what it leaves alone. -/
theorem Tenancy.write (h : Tenancy r m owner) (hp : owner p = some n)
    (hm : ∀ x, x < p ∨ p + n ≤ x → m' x = m x) :
    Tenancy r m' owner ∧ ∀ q k x, owner q = some k → q ≠ p → q ≤ x → x < q + k → m' x = m x := by
  constructor
  · obtain ⟨bs, hh, ho⟩ := h
    obtain ⟨b, hb, -, -, hin⟩ := ho.inPayload hp
    refine ⟨bs, { hh with listed := hh.listed.congr fun c hc x hlo hhi => hm x ?_ }, ho⟩
    by_contra hx
    exact (hh.tiled.disjoint hb hc (hin x (by omega) (by omega))).1 ⟨hlo, hhi⟩
  · intro q k x hq hne hlo hhi
    have := h.disjoint hq hp hne hlo hhi
    exact hm x (by omega)

/-! ### The blocks in use -/

/-- The block with the payload `p` is in use. -/
def InUse (r : HeapRegion) (m : Mem) (p : Nat) : Prop :=
  ∃ bs, Listed m r.heapStart bs ∧ ∃ b ∈ bs, b.payload sizeof = p ∧ b.inUse = true

theorem Tenancy.inUse (h : Tenancy r m owner) (hp : owner p = some n) : InUse r m p := by
  obtain ⟨bs, hh, ho⟩ := h
  obtain ⟨b, hb, hpay, huse, -⟩ := ho p n hp
  exact ⟨bs, hh.listed, b, hb, hpay, huse⟩

/-- What `alloc` hands out was not in use. -/
theorem not_inUse_of_alloc (hh : Heap r m bs) (hn : n ≤ 2 ^ 31)
    (ha : alloc r n fuel m = some (some p, m')) : ¬ InUse r m p := by
  rintro ⟨cs, hl, c, hc, rfl, huse⟩
  obtain rfl := hl.unique hh.listed
  have hroom := roomFor_of_le hh hn
  rcases (alloc_inv hh (by omega) ha).resolve_right fun hno => hno.1 hroom with
    ⟨-, ⟨b, hb, hfit, hp, -, -⟩ | ⟨hp, -⟩ | ⟨hp, -⟩⟩
  · -- a block of the list: it was free
    have hfree : b.inUse = false ∧ n ≤ b.size := by simpa [Block.fits] using hfit
    have hbc := Nat.add_right_cancel (Option.some.inj hp)
    rw [hh.tiled.eq_of_addr (by decide) hc hb hbc, hfree.1] at huse
    cases huse
  · cases hp
  · -- a new block: it is behind the list
    have hbehind := (hh.tiled.bounds hc).2
    have hend := Nat.add_right_cancel (Option.some.inj hp)
    have h9 : sizeof = 9 := rfl
    rw [Block.stop] at hbehind
    omega

end KernelAllocator

end RivOS
