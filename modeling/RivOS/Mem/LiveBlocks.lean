import RivOS.Mem.HeapOwned

/-!
# Mem — Payloads in use

The kernel heap for code that keeps pointers into it: which payloads are in use, and what a call or
a store leaves of the bytes in them.

* `Live r m l`: the heap is in order, and the payloads `l` are in use, each with the number of bytes
  it was asked for, no two of them the same.
* `Live.alloc`, `Live.free`, `Live.write`: a call puts a payload on the list or takes one off it, and
  the others are `Untouched`.
* `Idle`: a payload that is free.  A store to it is one to nobody's bytes (`Live.write_idle`).
-/

namespace RivOS

open FirstFit (Block)
open HeapBlock (sizeof)

namespace KernelAllocator

variable {r : HeapRegion} {m m' m'' : Mem} {l l' : List (Nat × Nat)} {n p q fuel : Nat}

structure Live (r : HeapRegion) (m : Mem) (l : List (Nat × Nat)) : Prop where
  apart : (l.map Prod.fst).Nodup
  tenancy : ∃ owner, Tenancy r m owner ∧ ∀ e ∈ l, owner e.1 = some e.2

/-- The payloads `l` have in `m'` the bytes they have in `m`. -/
def Untouched (l : List (Nat × Nat)) (m m' : Mem) : Prop :=
  ∀ e ∈ l, ∀ x, e.1 ≤ x → x < e.1 + e.2 → m' x = m x

/-! ### What is untouched -/

theorem Untouched.refl (l : List (Nat × Nat)) (m : Mem) : Untouched l m m := fun _ _ _ _ _ => rfl

theorem Untouched.trans (h : Untouched l m m') (h' : Untouched l m' m'') : Untouched l m m'' :=
  fun e he x hlo hhi => (h' e he x hlo hhi).trans (h e he x hlo hhi)

theorem Untouched.mono (h : Untouched l m m') (hs : l' ⊆ l) : Untouched l' m m' :=
  fun e he => h e (hs he)

/-! ### The list -/

theorem Live.sublist (h : Live r m l) (hs : l'.Sublist l) : Live r m l' where
  apart := h.apart.sublist (hs.map _)
  tenancy := h.tenancy.imp fun _ ht => ⟨ht.1, fun e he => ht.2 e (hs.subset he)⟩

theorem Live.perm (h : Live r m l) (hp : l.Perm l') : Live r m l' where
  apart := (hp.map _).nodup_iff.mp h.apart
  tenancy := h.tenancy.imp fun _ ht => ⟨ht.1, fun e he => ht.2 e (hp.mem_iff.mpr he)⟩

theorem live_init (m : Mem) : Live r (init r m) [] where
  apart := List.nodup_nil
  tenancy := ⟨fun _ => none, ⟨_, init_heap m, fun _ _ hp => by cases hp⟩,
    fun _ he => by cases he⟩

theorem Live.inUse (h : Live r m l) (hp : (p, n) ∈ l) : InUse r m p := by
  obtain ⟨owner, ht, ho⟩ := h.tenancy
  exact ht.inUse (ho _ hp)

theorem Live.bounds (h : Live r m l) (hp : (p, n) ∈ l) : r.heapStart < p ∧ p + n ≤ r.heapEnd := by
  obtain ⟨owner, ht, ho⟩ := h.tenancy
  exact ht.bounds (ho _ hp)

theorem Live.ne_zero (h : Live r m l) (hp : (p, n) ∈ l) : p ≠ 0 := by
  have := (h.bounds hp).1
  omega

/-- A payload is on the list once. -/
theorem Live.unique {k : Nat} (h : Live r m l) (hp : (p, n) ∈ l) (hq : (p, k) ∈ l) : n = k := by
  obtain ⟨owner, -, ho⟩ := h.tenancy
  exact Option.some.inj ((ho _ hp).symm.trans (ho _ hq))

/-- Two payloads have no byte in common. -/
theorem Live.disjoint {k x : Nat} (h : Live r m l) (hp : (p, n) ∈ l) (hq : (q, k) ∈ l) (hne : p ≠ q)
    (hlo : p ≤ x) (hhi : x < p + n) : ¬ (q ≤ x ∧ x < q + k) := by
  obtain ⟨owner, ht, ho⟩ := h.tenancy
  exact ht.disjoint (ho _ hp) (ho _ hq) hne hlo hhi

/-! ### The calls -/

theorem Live.alloc {q : Option Nat} (h : Live r m l) (hroom : Room r n m) (hn : n < 2 ^ 32)
    (ha : alloc r n fuel m = some (q, m')) :
    (q = none ∧ m' = m) ∨ ∃ p, q = some p ∧ Live r m' ((p, n) :: l) ∧ Untouched l m m' := by
  obtain ⟨owner, ht, ho⟩ := h.tenancy
  rcases ht.alloc_of_room hroom hn ha with hnull | ⟨p, rfl, hnone, ht', hkeep⟩
  · exact .inl hnull
  have hne : ∀ e ∈ l, e.1 ≠ p := by
    intro e he heq
    have := ho e he
    rw [heq, hnone] at this
    cases this
  refine .inr ⟨p, rfl, ⟨List.nodup_cons.mpr ⟨fun hm => ?_, h.apart⟩, _, ht', fun e he => ?_⟩,
    fun e he x => hkeep e.1 e.2 x (ho e he)⟩
  · obtain ⟨e, he, heq⟩ := List.mem_map.mp hm
    exact hne e he heq
  · rcases List.mem_cons.mp he with rfl | he
    · exact Function.update_self ..
    · rw [Function.update_of_ne (hne e he)]
      exact ho e he

theorem Live.room_of_le (h : Live r m l) (hn : n ≤ 2 ^ 31) : Room r n m :=
  h.tenancy.elim fun _ ht => ht.1.room_of_le hn

theorem Live.free (h : Live r m ((p, n) :: l)) :
    Live r (KernelAllocator.free p m) l ∧ Untouched ((p, n) :: l) m (KernelAllocator.free p m) := by
  obtain ⟨owner, ht, ho⟩ := h.tenancy
  obtain ⟨hnot, hapart⟩ := List.nodup_cons.mp h.apart
  obtain ⟨ht', hkeep⟩ := ht.free (ho _ List.mem_cons_self)
  refine ⟨⟨hapart, _, ht', fun e he => ?_⟩, fun e he x => hkeep e.1 e.2 x (ho e he)⟩
  have hne : e.1 ≠ p := fun heq => hnot (List.mem_map.mpr ⟨e, he, heq⟩)
  rw [Function.update_of_ne hne]
  exact ho e (.tail _ he)

/-- `free(nullptr)` stores to a byte that no block has. -/
theorem Live.free_null (h : Live r m l) :
    Live r (KernelAllocator.free 0 m) l ∧ Untouched l m (KernelAllocator.free 0 m) := by
  have hmem := r.memory
  have h9 : sizeof = 9 := rfl
  have hout : ∀ x, x ≤ r.heapEnd → KernelAllocator.free 0 m x = m x := fun x hx =>
    Function.update_of_ne (by omega) ..
  obtain ⟨owner, ht, ho⟩ := h.tenancy
  refine ⟨⟨h.apart, owner, ht.of_headers fun bs hh b hb x hx => ?_, ho⟩, fun e he x hlo hhi => ?_⟩
  · obtain ⟨-, hhi, -⟩ := hh.block_bounds hb
    have := hx.2
    simp only [Block.stop, Block.payload] at hhi this
    exact hout x (by omega)
  · have := (h.bounds he).2
    exact hout x (by omega)

/-- A store into one of the payloads. -/
theorem Live.write (h : Live r m l) (hp : (p, n) ∈ l)
    (hm : ∀ x, x < p ∨ p + n ≤ x → m' x = m x) :
    Live r m' l ∧ ∀ e ∈ l, e.1 ≠ p → ∀ x, e.1 ≤ x → x < e.1 + e.2 → m' x = m x := by
  obtain ⟨owner, ht, ho⟩ := h.tenancy
  obtain ⟨ht', hkeep⟩ := ht.write (ho _ hp) hm
  exact ⟨⟨h.apart, owner, ht', ho⟩, fun e he hne x => hkeep e.1 e.2 x (ho e he) hne⟩

/-- It is no matter for what can be served. -/
theorem Live.room_write {k : Nat} (h : Live r m l) (hp : (p, n) ∈ l)
    (hm : ∀ x, x < p ∨ p + n ≤ x → m' x = m x) (hroom : Room r k m) : Room r k m' := by
  obtain ⟨owner, ⟨bs, hh, ho⟩, hl⟩ := h.tenancy
  obtain ⟨b, hb, -, -, hin⟩ := ho.inPayload (hl _ hp)
  intro cs hcs
  have hlisted : Listed m' r.heapStart bs := hh.listed.congr fun c hc x hlo hhi => hm x (by
    by_contra hx
    exact (hh.tiled.disjoint hb hc (hin x (by omega) (by omega))).1 ⟨hlo, hhi⟩)
  rw [hcs.unique hlisted]
  exact hroom bs hh.listed

/-! ### Free payloads -/

/-- The payload `p` has `n` bytes and is not in use. -/
def Idle (r : HeapRegion) (m : Mem) (p n : Nat) : Prop :=
  ∃ bs, Listed m r.heapStart bs ∧
    ∃ b ∈ bs, b.payload sizeof = p ∧ b.inUse = false ∧ n ≤ b.size

theorem Live.write_idle (h : Live r m l) (hp : Idle r m p n)
    (hm : ∀ x, x < p ∨ p + n ≤ x → m' x = m x) : Live r m' l ∧ Untouched l m m' := by
  obtain ⟨cs, hl, b, hb, rfl, hfree, hn⟩ := hp
  obtain ⟨owner, ⟨bs, hh, ho⟩, hl'⟩ := h.tenancy
  obtain rfl := hl.unique hh.listed
  have hin : ∀ x, m' x ≠ m x → b.InPayload sizeof x := by
    intro x hx
    have : ¬ (x < b.payload sizeof ∨ b.payload sizeof + n ≤ x) := fun hout => hx (hm x hout)
    simp only [Block.InPayload, Block.payload, Block.stop] at this ⊢
    omega
  have ht : Tenancy r m owner := ⟨_, hh, ho⟩
  refine ⟨⟨h.apart, owner, ht.of_headers fun bs' hh' c hc x hx => ?_, hl'⟩, fun e he x hlo hhi => ?_⟩
  · obtain rfl := hh'.listed.unique hh.listed
    by_contra hne
    exact (hh.tiled.disjoint hb hc (hin x hne)).1 hx
  · by_contra hne
    obtain ⟨c, hc, hpay, huse, hlen, -⟩ := ho e.1 e.2 (hl' e he)
    have hbc : b ≠ c := by
      rintro rfl
      rw [hfree] at huse
      cases huse
    refine (hh.tiled.disjoint hb hc (hin x hne)).2 hbc ⟨hpay ▸ hlo, ?_⟩
    simp only [Block.payload, Block.stop] at hpay ⊢
    omega

/-- What was given back is free. -/
theorem Live.idle_free (h : Live r m ((p, n) :: l)) : Idle r (KernelAllocator.free p m) p n := by
  obtain ⟨owner, ⟨bs, hh, ho⟩, hl⟩ := h.tenancy
  obtain ⟨b, hb, rfl, -, hlen, hne⟩ := ho p n (hl _ List.mem_cons_self)
  obtain ⟨-, hh'⟩ := hh.free_heap hb hne
  exact ⟨_, hh'.listed, _, List.mem_map.mpr ⟨b, hb, if_pos rfl⟩, rfl, rfl, hlen⟩

end KernelAllocator

end RivOS
