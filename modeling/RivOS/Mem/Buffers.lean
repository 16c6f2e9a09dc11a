import RivOS.Mem.HeapOwned
import RivOS.Support.Buffers

/-!
# Mem — The kernel heap and its callers

`KernelAllocator` as an `Allocator` of buffers: a block is handed out with the bytes that lie in it,
and giving it back leaves the caller's bytes there.

* `buffers_lawful`: it is lawful while the heap is in order, for requests up to the size of the heap.
* `Holding`: the heap is in order, and these buffers are in the hands of somebody.  `Holding.alloc`
  and `Holding.free` add a buffer to them and take one away.
-/

namespace RivOS

open FirstFit (Block)
open HeapBlock (sizeof)

namespace KernelAllocator

variable {r : HeapRegion} {m m' : Mem} {bs : List Block} {b : Block} {n p : Nat} {ws : List UInt8}

/-- The heap is in order. -/
def InOrder (r : HeapRegion) (m : Mem) : Prop := ∃ bs, Heap r m bs

/-- No list of blocks is longer than the heap, so the loop of `alloc` ends. -/
def buffers (r : HeapRegion) : Allocator Mem where
  alloc n m :=
    match alloc r n r.heapEnd m with
    | some (some p, m) => (some ⟨p, load m p n⟩, m)
    | some (none, m) => (none, m)
    | none => (none, m)
  free b m := free b.addr (store m b.addr b.bytes)

/-! ### The laws -/

/-- Every block has a header, so there are fewer blocks than bytes. -/
theorem length_le_finish {lo : Nat} (ht : FirstFit.Tiled sizeof lo bs) :
    lo + bs.length ≤ FirstFit.finish sizeof lo bs := by
  induction bs generalizing lo with
  | nil => exact Nat.le_refl lo
  | cons b bs ih =>
      obtain ⟨rfl, ht⟩ := ht
      have := ih ht
      simp only [FirstFit.finish, Block.stop, sizeof, List.length_cons] at this ⊢
      omega

theorem InOrder.tenancy (h : InOrder r m) : Tenancy r m fun _ => none := by
  obtain ⟨bs, hh⟩ := h
  exact ⟨bs, hh, fun _ _ hp => by cases hp⟩

theorem Tenancy.inOrder {owner : Nat → Option Nat} (h : Tenancy r m owner) : InOrder r m :=
  h.imp fun _ hh => hh.1

/-- `alloc` returns. -/
theorem InOrder.alloc_returns (h : InOrder r m) (hn : n ≤ r.heapEnd - r.heapStart) :
    ∃ q m', alloc r n r.heapEnd m = some (q, m') := by
  obtain ⟨bs, hh⟩ := h
  have hlen := length_le_finish hh.tiled
  have hfits := hh.fits
  have hmem := r.memory
  obtain ⟨q, m', ha, -⟩ := hh.alloc_cases (n := n) (by omega) (show bs.length ≤ r.heapEnd by omega)
  exact ⟨q, m', ha⟩

/-- A free block that is large enough makes `alloc` succeed. -/
theorem alloc_of_fits (hh : Heap r m bs) (hb : b ∈ bs) (hfit : b.fits n = true) :
    (buffers r).HasRoom n m := by
  have hlen := length_le_finish hh.tiled
  have hfits := hh.fits
  have himage := r.image
  obtain ⟨bs, t, rfl⟩ : ∃ bs' t, bs = bs' ++ [t] := by
    rcases List.eq_nil_or_concat bs with rfl | ⟨bs', t, rfl⟩
    · cases hh.super
    · exact ⟨bs', t, List.concat_eq_append⟩
  obtain ⟨c, hc⟩ : ∃ c, (bs ++ [t]).find? (Block.fits n) = some c :=
    Option.isSome_iff_exists.mp (List.find?_isSome.mpr ⟨b, hb, hfit⟩)
  rw [List.length_append, List.length_singleton] at hlen
  have ha := allocFrom_eq (n := n) r hh.listed (show bs.length < r.heapEnd by omega)
  rw [hc] at ha
  simp only [Allocator.HasRoom, buffers, alloc, ha, Option.isSome_some]

/-- Of a new payload nothing need be said. -/
theorem Tenancy.of_update {owner : Nat → Option Nat} {x : Option Nat} (hp : owner p = none)
    (h : Tenancy r m (Function.update owner p x)) : Tenancy r m owner := by
  obtain ⟨bs, hh, ho⟩ := h
  refine ⟨bs, hh, fun q k hq => ho q k ?_⟩
  rw [Function.update_of_ne, hq]
  rintro rfl
  rw [hp] at hq
  cases hq

/-- Bytes stored in an owned payload leave the heap in order. -/
theorem Tenancy.store {owner : Nat → Option Nat} (h : Tenancy r m owner) (hp : owner p = some n)
    (hlen : ws.length = n) : Tenancy r (store m p ws) owner :=
  (h.write hp fun _ hx => store_of_not_mem (by omega)).1

/-- What was given back can be had again. -/
theorem Tenancy.room_again {owner : Nat → Option Nat} (h : Tenancy r m owner)
    (hp : owner p = some n) : (buffers r).HasRoom n (KernelAllocator.free p m) := by
  obtain ⟨bs, hh, ho⟩ := h
  obtain ⟨b, hb, rfl, -, hle, hne⟩ := ho p n hp
  obtain ⟨-, hh'⟩ := hh.free_heap hb hne
  refine alloc_of_fits hh' (b := { b with inUse := false }) ?_ (by simpa [Block.fits] using hle)
  exact List.mem_map.mpr ⟨b, hb, if_pos rfl⟩

/-- Beside payloads that somebody has, which it leaves alone. -/
theorem tenancy_lawful (r : HeapRegion) (owner : Nat → Option Nat) :
    (buffers r).Lawful (fun m => Tenancy r m owner) (r.heapEnd - r.heapStart) where
  keeps {n m} h hn := by
    obtain ⟨q, m', ha⟩ := h.inOrder.alloc_returns hn
    simp only [buffers, ha]
    rcases h.alloc hn ha with ⟨rfl, rfl⟩ | ⟨p, rfl, hp, ht, -⟩
    · exact h
    · exact ht.of_update hp
  sized {n m b t} h := by
    simp only [buffers] at h
    split at h <;> cases h
    exact length_load
  back {n m b t bs} h hn hb hlen := by
    obtain ⟨q, m', ha⟩ := h.inOrder.alloc_returns hn
    have ht := h.alloc hn ha
    simp only [buffers, ha] at hb
    rcases ht with ⟨rfl, rfl⟩ | ⟨p, rfl, hnone, ht, -⟩ <;> cases hb
    have hp : Function.update owner p (some n) p = some n := Function.update_self ..
    have hs := ht.store hp hlen
    have hback := (hs.free hp).1
    rw [Function.update_idem, ← hnone, Function.update_eq_self] at hback
    exact ⟨hback, hs.room_again hp⟩

/-- **The kernel's allocator** is lawful while the heap is in order. -/
theorem buffers_lawful (r : HeapRegion) :
    (buffers r).Lawful (InOrder r) (r.heapEnd - r.heapStart) := by
  have hlawful := tenancy_lawful r fun _ => none
  exact
    { keeps := fun h hn => (hlawful.keeps h.tenancy hn).inOrder
      sized := hlawful.sized
      back := fun h hn hb hlen =>
        (hlawful.back h.tenancy hn hb hlen).imp_left Tenancy.inOrder }

/-! ### Buffers in hand -/

/-- The heap is in order, and the buffers `held` are blocks in use, each of its own. -/
structure Holding (r : HeapRegion) (m : Mem) (held : List Buffer) : Prop where
  distinct : (held.map (·.addr)).Nodup
  tenancy : ∃ owner, Tenancy r m owner ∧ ∀ b ∈ held, owner b.addr = some b.bytes.length

variable {held held' : List Buffer} {buf buf' : Buffer}

theorem alloc_of_buffers (ha : (buffers r).alloc n m = (some buf, m')) :
    KernelAllocator.alloc r n r.heapEnd m = some (some buf.addr, m') ∧ buf.bytes.length = n := by
  simp only [buffers] at ha
  split at ha <;> cases ha
  exact ⟨‹_›, length_load⟩

theorem Holding.inUse (h : Holding r m held) (hb : buf ∈ held) : InUse r m buf.addr := by
  obtain ⟨owner, ht, ho⟩ := h.tenancy
  exact ht.inUse (ho buf hb)

/-- A buffer is no larger than the memory. -/
theorem Holding.length_le (h : Holding r m held) (hb : buf ∈ held) : buf.bytes.length ≤ 2 ^ 27 := by
  obtain ⟨owner, ht, ho⟩ := h.tenancy
  have hbounds := ht.bounds (ho buf hb)
  have hmem := r.memory
  omega

theorem Holding.sublist (h : Holding r m held) (hs : held'.Sublist held) : Holding r m held' where
  distinct := h.distinct.sublist (hs.map _)
  tenancy := h.tenancy.imp fun _ ht => ⟨ht.1, fun b hb => ht.2 b (hs.subset hb)⟩

theorem Holding.perm (h : Holding r m held) (hp : held.Perm held') : Holding r m held' where
  distinct := (hp.map _).nodup_iff.mp h.distinct
  tenancy := h.tenancy.imp fun _ ht => ⟨ht.1, fun b hb => ht.2 b (hp.mem_iff.mpr hb)⟩

/-- Other bytes in a buffer. -/
theorem Holding.put (h : Holding r m (buf :: held)) (haddr : buf'.addr = buf.addr)
    (hlen : buf'.bytes.length = buf.bytes.length) : Holding r m (buf' :: held) where
  distinct := by
    rw [List.map_cons, haddr]
    exact h.distinct
  tenancy := by
    obtain ⟨owner, ht, ho⟩ := h.tenancy
    refine ⟨owner, ht, fun b hb => ?_⟩
    rcases List.mem_cons.mp hb with rfl | hb
    · rw [haddr, hlen]
      exact ho buf List.mem_cons_self
    · exact ho b (.tail _ hb)

/-- What is handed out was not in use before. -/
theorem Holding.alloc (h : Holding r m held) (hn : n ≤ 2 ^ 31)
    (ha : (buffers r).alloc n m = (some buf, m')) :
    ¬ InUse r m buf.addr ∧ buf.bytes.length = n ∧ Holding r m' (buf :: held) := by
  obtain ⟨owner, ht, ho⟩ := h.tenancy
  obtain ⟨halloc, hlen⟩ := alloc_of_buffers ha
  have hnew : ¬ InUse r m buf.addr := by
    obtain ⟨bs, hh, -⟩ := ht
    exact not_inUse_of_alloc hh hn halloc
  rcases ht.alloc_of_le hn halloc with ⟨hq, -⟩ | ⟨q, hq, hnone, ht', -⟩
  · cases hq
  obtain rfl := Option.some.inj hq
  have hne : ∀ b ∈ held, b.addr ≠ buf.addr := by
    intro b hb he
    have := ho b hb
    rw [he, hnone] at this
    cases this
  refine ⟨hnew, hlen, ?_, _, ht', fun b hb => ?_⟩
  · refine List.nodup_cons.mpr ⟨fun hmem => ?_, h.distinct⟩
    obtain ⟨b, hb, he⟩ := List.mem_map.mp hmem
    exact hne b hb he
  · rcases List.mem_cons.mp hb with rfl | hb
    · rw [Function.update_self, hlen]
    · rw [Function.update_of_ne (hne b hb)]
      exact ho b hb

theorem Holding.refused (h : Holding r m held) (hn : n ≤ 2 ^ 31)
    (ha : (buffers r).alloc n m = (none, m')) : Holding r m' held := by
  obtain ⟨owner, ht, ho⟩ := h.tenancy
  simp only [buffers] at ha
  split at ha
  · cases ha
  · next hq =>
      cases ha
      rcases ht.alloc_of_le hn hq with ⟨-, rfl⟩ | ⟨p, hp, -⟩
      · exact h
      · cases hp
  · cases ha
    exact h

theorem Holding.free (h : Holding r m (buf :: held)) :
    Holding r ((buffers r).free buf m) held := by
  obtain ⟨owner, ht, ho⟩ := h.tenancy
  obtain ⟨hnot, hdistinct⟩ := List.nodup_cons.mp h.distinct
  have hp := ho buf List.mem_cons_self
  refine ⟨hdistinct, _, ((ht.store hp rfl).free hp).1, fun b hb => ?_⟩
  have hne : b.addr ≠ buf.addr := fun he => hnot (List.mem_map.mpr ⟨b, hb, he⟩)
  rw [Function.update_of_ne hne]
  exact ho b (.tail _ hb)

end KernelAllocator

end RivOS
