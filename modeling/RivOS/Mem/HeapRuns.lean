import RivOS.Mem.Heap
import RivOS.Support.Ownership

/-!
# Mem — Runs of the heap

Runs of `alloc` and `free`, with stores into the payloads in between; a pointer that is freed or
stored through is one the history holds (`UsesHeld`).

* `run_heap`: in a run whose requests all have room, the block list tiles a prefix of the heap, and
  what the history holds are payloads of blocks in use.
* `heap_structured`: requests no larger than the heap always have room.
* `payloads_in_heap`: for a larger one, room is what keeps its payload inside the heap.
-/

namespace RivOS

open FirstFit (Block)
open HeapBlock (sizeof)
open Ownership (Holds)

namespace KernelAllocator

/-- A call with its result, or a store; `free` and a store name the request that the pointer came
from. -/
inductive Event where
  | alloc (n : Nat) (p : Option Nat)
  | free (p n : Nat)
  | store (x : Nat) (w : UInt8)

/-- What a call does to the ownership of addresses: a request of `n` bytes claims its pointer. -/
def own : Event → Option (Ownership.Event Nat Nat)
  | .alloc n (some p) => some (.claimed p n)
  | .free p n => some (.released p n)
  | _ => none

def owns (es : List Event) : List (Ownership.Event Nat Nat) := es.filterMap own

/-- Only held pointers are freed, and stores are inside the bytes a held pointer was given for. -/
def UsesHeld : List Event → Prop :=
  Along fun pre e =>
    match e with
    | .alloc _ _ => True
    | .free p n => Holds (owns pre) p n
    | .store x _ => ∃ p n, Holds (owns pre) p n ∧ p ≤ x ∧ x < p + n

inductive Step (r : HeapRegion) (m : Mem) : Event → Mem → Prop where
  | alloc {n fuel : Nat} {p : Option Nat} {m' : Mem} (hn : n < 2 ^ 32)
      (h : alloc r n fuel m = some (p, m')) : Step r m (.alloc n p) m'
  | free {p n : Nat} : Step r m (.free p n) (free p m)
  | store {x : Nat} {w : UInt8} : Step r m (.store x w) (Function.update m x w)

variable {r : HeapRegion} {m m' : Mem} {es : List Event} {e : Event} {bs : List Block}
  {owner : Nat → Option Nat} {n p : Nat}

/-- Every owned address is the payload of a block in use that is large enough. -/
def Owned (r : HeapRegion) (bs : List Block) (owner : Nat → Option Nat) : Prop :=
  ∀ p n, owner p = some n →
    ∃ b ∈ bs, b.payload sizeof = p ∧ b.inUse = true ∧ n ≤ b.size ∧ b.addr ≠ r.heapStart

/-! ### One call -/

/-- More fuel does not change the result. -/
theorem allocFrom_mono {fuel k a : Nat} {x : Option Nat × Mem}
    (h : allocFrom r n fuel a m = some x) (hk : fuel ≤ k) : allocFrom r n k a m = some x := by
  induction fuel generalizing k a with
  | zero => cases h
  | succ fuel ih =>
      obtain ⟨k, rfl⟩ : ∃ j, k = j + 1 := ⟨k - 1, by omega⟩
      rw [allocFrom] at h ⊢
      by_cases hfit : (!HeapBlock.inUse m a && decide (HeapBlock.size m a ≥ n)) = true
      · rwa [if_pos hfit] at h ⊢
      · rw [if_neg hfit] at h ⊢
        by_cases hlast : HeapBlock.next m a = 0
        · rwa [if_pos hlast] at h ⊢
        · rw [if_neg hlast] at h ⊢
          exact ih h (by omega)

theorem Owned.none_of_free (hh : Heap r m bs) (ho : Owned r bs owner) {b : Block} (hb : b ∈ bs)
    (hu : b.inUse = false) : owner (b.payload sizeof) = none := by
  cases h : owner (b.payload sizeof) with
  | none => rfl
  | some k =>
      obtain ⟨c, hc, hp, huc, -⟩ := ho _ _ h
      rw [hh.tiled.eq_of_addr (by decide) hc hb (Nat.add_right_cancel hp), hu] at huc
      cases huc

/-- A marked block is the only one that changes. -/
theorem mem_setUse_of_ne {a : Nat} {v : Bool} {c : Block} (hc : c ∈ bs) (hne : c.addr ≠ a) :
    c ∈ FirstFit.setUse a v bs :=
  FirstFit.mem_setUse.mpr ⟨c, hc, (if_neg hne).symm⟩

/-- A free block is given to the request that takes it. -/
theorem Owned.take (hh : Heap r m bs) (ho : Owned r bs owner) {b : Block} (hb : b ∈ bs)
    (hfit : b.fits n = true) :
    Owned r (FirstFit.setUse b.addr true bs)
      (Function.update owner (b.payload sizeof) (some n)) := by
  simp only [Block.fits, Bool.and_eq_true, Bool.not_eq_true', decide_eq_true_eq] at hfit
  have hne := hh.addr_ne_of_free hb hfit.1
  intro p k hp
  by_cases hpb : p = b.payload sizeof
  · subst hpb
    rw [Function.update_self] at hp
    cases hp
    exact ⟨{ b with inUse := true }, FirstFit.mem_setUse.mpr ⟨b, hb, (if_pos rfl).symm⟩, rfl, rfl,
      hfit.2, hne⟩
  · rw [Function.update_of_ne hpb] at hp
    obtain ⟨c, hc, rfl, hrest⟩ := ho p k hp
    refine ⟨c, mem_setUse_of_ne hc fun h => hpb ?_, rfl, hrest⟩
    rw [Block.payload, Block.payload, h]

/-- A new block is given to the request it was made for. -/
theorem Owned.add (hh : Heap r m bs) (ho : Owned r bs owner) {b : Block}
    (hb : b.addr = FirstFit.finish sizeof r.heapStart bs) (hu : b.inUse = true) :
    owner (b.payload sizeof) = none ∧
      Owned r (bs ++ [b]) (Function.update owner (b.payload sizeof) (some b.size)) := by
  have behind : ∀ c ∈ bs, c.addr < b.addr := fun c hc => by
    have := (hh.tiled.bounds hc).2
    simp only [Block.stop, sizeof] at this
    simp only [sizeof] at hb
    omega
  constructor
  · cases h : owner (b.payload sizeof) with
    | none => rfl
    | some k =>
        obtain ⟨c, hc, hp, -⟩ := ho _ _ h
        exact absurd (Nat.add_right_cancel hp) (Nat.ne_of_lt (behind c hc))
  · intro p k hp
    by_cases hpb : p = b.payload sizeof
    · subst hpb
      rw [Function.update_self] at hp
      cases hp
      refine ⟨b, by simp, rfl, hu, Nat.le_refl _, Nat.ne_of_gt ?_⟩
      exact behind ⟨r.heapStart, 0, true⟩ (List.mem_of_mem_head? hh.super)
    · rw [Function.update_of_ne hpb] at hp
      obtain ⟨c, hc, hrest⟩ := ho p k hp
      exact ⟨c, List.mem_append_left _ hc, hrest⟩

/-- A block given back has no owner. -/
theorem Owned.giveBack (ho : Owned r bs owner) {b : Block} :
    Owned r (FirstFit.setUse b.addr false bs)
      (Function.update owner (b.payload sizeof) none) := by
  intro p k hp
  by_cases hpb : p = b.payload sizeof
  · rw [hpb, Function.update_self] at hp
    cases hp
  · rw [Function.update_of_ne hpb] at hp
    obtain ⟨c, hc, rfl, hrest⟩ := ho p k hp
    refine ⟨c, mem_setUse_of_ne hc fun h => hpb ?_, rfl, hrest⟩
    rw [Block.payload, Block.payload, h]

/-! ### Runs -/

/-- The heap and the owners of its payloads, against the history. -/
structure Consistent (r : HeapRegion) (es : List Event) (m : Mem) (bs : List Block)
    (owner : Nat → Option Nat) : Prop where
  heap : Heap r m bs
  owned : Owned r bs owner
  owners : Run Ownership.Step (fun _ => none) (owns es) owner

theorem owns_concat (es : List Event) (e : Event) : owns (es ++ [e]) = owns es ++ (own e).toList := by
  rw [owns, List.filterMap_append, owns]
  cases h : own e <;> simp [h]

/-- The requests of an event have room. -/
def HasRoom (r : HeapRegion) (bs : List Block) (e : Event) : Prop :=
  ∀ n p, e = .alloc n p → Heap.RoomFor r n bs

/-- A pointer that `e` returns has its bytes inside the heap. -/
def InHeap (r : HeapRegion) (e : Event) : Prop :=
  ∀ n p, e = .alloc n (some p) → r.heapStart ≤ p ∧ p + n ≤ r.heapEnd

/-- A call that returned did what `alloc_cases` says. -/
theorem alloc_inv (hh : Heap r m bs) (hn : n < 2 ^ 32) {fuel : Nat} {q : Option Nat}
    (h : alloc r n fuel m = some (q, m')) :
    (Heap.RoomFor r n bs ∧
      ((∃ b ∈ bs, b.fits n = true ∧ q = some (b.payload sizeof) ∧
          m' = HeapBlock.setInUse m b.addr true ∧ Heap r m' (FirstFit.setUse b.addr true bs)) ∨
        (q = none ∧ m' = m) ∨
        (q = some (FirstFit.finish sizeof r.heapStart bs + sizeof) ∧
          Heap r m' (bs ++ [⟨FirstFit.finish sizeof r.heapStart bs, n, true⟩])))) ∨
      (¬ Heap.RoomFor r n bs ∧ q = some (FirstFit.finish sizeof r.heapStart bs + sizeof)) := by
  obtain ⟨q', m'', h', hcases⟩ := hh.alloc_cases hn (Nat.le_max_left bs.length fuel)
  rw [alloc, allocFrom_mono h (Nat.le_max_right bs.length fuel)] at h'
  cases h'
  exact hcases

/-- What `alloc` returns has its bytes inside the heap exactly when there was room. -/
theorem inHeap_iff (hh : Heap r m bs) (hn : n < 2 ^ 32) {fuel : Nat} {q : Option Nat}
    (h : alloc r n fuel m = some (q, m')) : InHeap r (.alloc n q) ↔ Heap.RoomFor r n bs := by
  have h9 : sizeof = 9 := rfl
  have hmem := r.memory
  rcases alloc_inv hh hn h with ⟨hroom, hcases⟩ | ⟨hno, rfl⟩
  · refine iff_of_true ?_ hroom
    rcases hcases with ⟨b, hb, hfit, rfl, -, -⟩ | ⟨rfl, -⟩ | ⟨rfl, hh'⟩
    · rintro k q ⟨⟩
      obtain ⟨hlo, hhi, -⟩ := hh.block_bounds hb
      have hfree : b.inUse = false ∧ n ≤ b.size := by simpa [Block.fits] using hfit
      simp only [Block.stop] at hhi
      simp only [Block.payload]
      omega
    · exact fun _ _ h => by cases h
    · rintro k q ⟨⟩
      obtain ⟨hlo, hhi, -⟩ := hh'.block_bounds (List.mem_append_right bs (List.mem_singleton_self _))
      simp only [Block.stop] at hlo hhi
      omega
  · refine iff_of_false (fun hin => hno ?_) hno
    have := hin n _ rfl
    exact .inr (.inl (by omega))

theorem heap_step (hc : Consistent r es m bs owner) (hroom : HasRoom r bs e)
    (huse : UsesHeld (es ++ [e])) (h : Step r m e m') :
    InHeap r e ∧ ∃ bs' owner', Consistent r (es ++ [e]) m' bs' owner' := by
  obtain ⟨hh, ho, hrun⟩ := hc
  have huse := ((along_concat_iff es e).mp huse).2
  cases h with
  | @alloc n fuel q m' hn h =>
      have hroom := hroom n q rfl
      refine ⟨(inHeap_iff hh hn h).mpr hroom, ?_⟩
      rcases (alloc_inv hh hn h).resolve_right fun hno => hno.1 hroom with
        ⟨-, ⟨b, hb, hfit, rfl, -, hh'⟩ | ⟨rfl, rfl⟩ | ⟨rfl, hh'⟩⟩
      · -- a free block of the list
        have hfree : b.inUse = false ∧ n ≤ b.size := by simpa [Block.fits] using hfit
        refine ⟨_, _, hh', ho.take hh hb hfit, ?_⟩
        rw [owns_concat]
        exact hrun.snoc (.claim (ho.none_of_free hh hb hfree.1))
      · -- the null pointer
        refine ⟨bs, owner, hh, ho, ?_⟩
        rw [owns_concat]
        simpa [own] using hrun
      · -- a new block
        obtain ⟨hnone, ho'⟩ := ho.add (b := ⟨_, n, true⟩) hh rfl rfl
        refine ⟨_, _, hh', ho', ?_⟩
        rw [owns_concat]
        exact hrun.snoc (.claim hnone)
  | @free p n =>
      have hp : owner p = some n := (Ownership.holds_iff_owner hrun p n).mp huse
      obtain ⟨b, hb, rfl, -, -, hne⟩ := ho p n hp
      refine ⟨fun _ _ h => (by cases h), _, _, (hh.free_heap hb hne).2, ho.giveBack, ?_⟩
      rw [owns_concat]
      exact hrun.snoc (.release hp)
  | @store x w =>
      obtain ⟨p, n, hp, hlo, hhi⟩ := huse
      obtain ⟨b, hb, rfl, -, hn, -⟩ := ho p n ((Ownership.holds_iff_owner hrun p n).mp hp)
      refine ⟨fun _ _ h => (by cases h), bs, owner, hh.store hb hlo ?_, ho, ?_⟩
      · simp only [Block.payload] at hhi
        simp only [Block.stop]
        omega
      · rw [owns_concat]
        simpa [own] using hrun

theorem run_heap {G : Mem → Event → Prop}
    (hG : ∀ {m bs e}, Heap r m bs → G m e → HasRoom r bs e) {m₀ : Mem}
    (run : Run (Guarded G (Step r)) (init r m₀) es m) (hu : UsesHeld es) :
    (∃ bs owner, Consistent r es m bs owner) ∧ ∀ e ∈ es, InHeap r e := by
  refine run.invHist (I := fun es m => UsesHeld es →
    (∃ bs owner, Consistent r es m bs owner) ∧ ∀ e ∈ es, InHeap r e) (fun _ => ?_)
    (fun _ ih h hu => ?_) hu
  · exact ⟨⟨_, _, init_heap m₀, fun _ _ h => (by cases h), .nil⟩, fun _ h => (by cases h)⟩
  · obtain ⟨⟨bs, owner, hc⟩, hin⟩ := ih ((along_concat_iff _ _).mp hu).1
    obtain ⟨hlast, hc'⟩ := heap_step hc (hG hc.heap h.1) hu h.2
    refine ⟨hc', fun e he => ?_⟩
    rcases List.mem_append.mp he with he | he
    · exact hin e he
    · exact List.mem_singleton.mp he ▸ hlast

/-! ### Structure -/

/-- The block list tiles a prefix of the heap, and the payloads in use keep clear of each other and
of all headers. -/
structure Structured (r : HeapRegion) (m : Mem) (bs : List Block) : Prop where
  listed : Listed m r.heapStart bs
  tiled : FirstFit.Tiled sizeof r.heapStart bs
  fits : FirstFit.finish sizeof r.heapStart bs ≤ r.heapEnd
  payloads : ∀ b ∈ bs, b.inUse = true → ∀ c ∈ bs, c.inUse = true → b ≠ c →
    ∀ x, b.InPayload sizeof x → ¬ c.InPayload sizeof x
  headers : ∀ b ∈ bs, b.inUse = true → ∀ c ∈ bs, ∀ x, b.InPayload sizeof x → ¬ c.InHeader sizeof x

/-- `alloc` returned a block of at least `n` bytes that was not in use and nobody held, or
`nullptr` and changed nothing. -/
def Served (r : HeapRegion) (es : List Event) (m : Mem) (n : Nat) : Option Nat → Mem → Prop
  | none, m' => m' = m
  | some p, m' => ∃ bs bs' b, Listed m r.heapStart bs ∧ Listed m' r.heapStart bs' ∧
      b ∈ bs' ∧ b.payload sizeof = p ∧ b.inUse = true ∧ n ≤ b.size ∧
      (∀ c ∈ bs, c.inUse = true → c.addr ≠ b.addr ∧
        ∀ x, b.InPayload sizeof x → ¬ c.InPayload sizeof x) ∧
      ∀ k, ¬ Holds (owns es) p k

/-- Requests no larger than the heap. -/
def Small (r : HeapRegion) (e : Event) : Prop :=
  ∀ n p, e = .alloc n p → n ≤ r.heapEnd - r.heapStart

/-- The heap is far from the end of the address space. -/
theorem roomFor_of_le (hh : Heap r m bs) (hn : n ≤ 2 ^ 31) : Heap.RoomFor r n bs := by
  have h9 : sizeof = 9 := rfl
  have hfits := hh.fits
  have hmem := r.memory
  exact .inr (.inl (by omega))

theorem le_of_small (r : HeapRegion) (hn : n ≤ r.heapEnd - r.heapStart) : n ≤ 2 ^ 31 := by
  have hsize := r.size
  omega

theorem roomFor_of_small (hh : Heap r m bs) (hn : n ≤ r.heapEnd - r.heapStart) :
    Heap.RoomFor r n bs :=
  roomFor_of_le hh (le_of_small r hn)

theorem served (hc : Consistent r es m bs owner) (hn : n < 2 ^ 32) (hroom : Heap.RoomFor r n bs)
    {fuel : Nat} (hf : bs.length ≤ fuel) :
    ∃ p m', alloc r n fuel m = some (p, m') ∧ Served r es m n p m' := by
  obtain ⟨hh, ho, hrun⟩ := hc
  obtain ⟨p, m', h, ⟨-, hcases⟩ | ⟨hno, -⟩⟩ := hh.alloc_cases hn hf
  case inr => exact absurd hroom hno
  refine ⟨p, m', h, ?_⟩
  rcases hcases with ⟨b, hb, hfit, rfl, -, hh'⟩ | ⟨rfl, rfl⟩ | ⟨rfl, hh'⟩
  -- a free block: the blocks in use are other ones, and disjoint from it
  · have hfree : b.inUse = false ∧ n ≤ b.size := by simpa [Block.fits] using hfit
    refine ⟨bs, _, { b with inUse := true }, hh.listed, hh'.listed,
      FirstFit.mem_setUse.mpr ⟨b, hb, (if_pos rfl).symm⟩, rfl, rfl, hfree.2, fun c hc hu => ?_,
      fun k hk => ?_⟩
    · have hne : b ≠ c := by
        rintro rfl
        rw [hfree.1] at hu
        cases hu
      exact ⟨fun e => hne (hh.tiled.eq_of_addr (by decide) hb hc e.symm),
        fun x hx => (hh.tiled.disjoint hb hc hx).2 hne⟩
    · rw [Ownership.holds_iff_owner hrun, ho.none_of_free hh hb hfree.1] at hk
      cases hk
  · rfl
  · have hnew : (⟨FirstFit.finish sizeof r.heapStart bs, n, true⟩ : Block) ∈
        bs ++ [⟨FirstFit.finish sizeof r.heapStart bs, n, true⟩] := by simp
    refine ⟨bs, _, _, hh.listed, hh'.listed, hnew, rfl, rfl, Nat.le_refl n, fun c hc hu => ?_,
      fun k hk => ?_⟩
    · have hlt := (hh.tiled.bounds hc).2
      have h9 : sizeof = 9 := rfl
      simp only [Block.stop] at hlt
      have hne : c.addr ≠ FirstFit.finish sizeof r.heapStart bs := by omega
      exact ⟨hne, fun x hx => (hh'.tiled.disjoint hnew (List.mem_append_left _ hc) hx).2
        fun e => hne (congrArg Block.addr e).symm⟩
    · rw [Ownership.holds_iff_owner hrun,
        show FirstFit.finish sizeof r.heapStart bs + sizeof =
          (⟨FirstFit.finish sizeof r.heapStart bs, n, true⟩ : Block).payload sizeof from rfl,
        (ho.add hh rfl rfl).1] at hk
      cases hk

/-- **The kernel heap is a row of blocks.** -/
theorem heap_structured (r : HeapRegion) (m₀ : Mem)
    (run : Run (Guarded (fun _ => Small r) (Step r)) (init r m₀) es m) (hu : UsesHeld es) :
    (∃ bs, Structured r m bs) ∧
      ∀ n ≤ r.heapEnd - r.heapStart, ∃ k, ∀ fuel ≥ k, ∃ p m',
        alloc r n fuel m = some (p, m') ∧ Served r es m n p m' := by
  obtain ⟨⟨bs, owner, hc⟩, -⟩ := run_heap
    (fun hh hs n p he => roomFor_of_small hh (hs n p he)) run hu
  have hh := hc.heap
  refine ⟨⟨bs, hh.listed, hh.tiled, hh.fits, fun b hb _ c hc' _ hne x hx => ?_,
    fun b hb _ c hc' x hx => ?_⟩, fun n hn => ⟨bs.length, fun fuel hf => ?_⟩⟩
  · exact (hh.tiled.disjoint hb hc' hx).2 hne
  · exact (hh.tiled.disjoint hb hc' hx).1
  · have hmem := r.memory
    exact served hc (by omega) (roomFor_of_small hh hn) hf

/-- A kernel image of 1 MiB. -/
def smallImage : HeapRegion := ⟨0x200000, 0x2200000, by decide, by decide, by decide⟩

theorem alloc_first : ∃ m, alloc smallImage 10 1 (init smallImage fun _ => 0) =
    some (some 0x200012, m) := ⟨_, rfl⟩

theorem usesHeld_alloc (n : Nat) (p : Option Nat) : UsesHeld [.alloc n p] :=
  (along_concat_iff [] _).mpr ⟨along_nil _, trivial⟩

theorem heap_structured_first : ∃ m, alloc smallImage 10 1 (init smallImage fun _ => 0) =
    some (some 0x200012, m) ∧ ∃ bs, Structured smallImage m bs := by
  obtain ⟨m, h⟩ := alloc_first
  refine ⟨m, h, (heap_structured smallImage (fun _ => 0)
    (Run.single ⟨?_, .alloc (by decide) h⟩) (usesHeld_alloc _ _)).1⟩
  rintro n p ⟨⟩
  decide

/-! ### Bounds -/

/-- **Payloads are inside the heap** in every run whose requests have room; and a request keeps to
the heap exactly when it has room. -/
theorem payloads_in_heap (r : HeapRegion) (m₀ : Mem)
    (run : Run (Guarded (fun m e => ∀ bs, Listed m r.heapStart bs → HasRoom r bs e) (Step r))
      (init r m₀) es m) (hu : UsesHeld es) :
    (∀ e ∈ es, InHeap r e) ∧
      ∃ bs, Listed m r.heapStart bs ∧ ∀ n < 2 ^ 32, Heap.RoomFor r n bs ↔
        ∃ k, ∀ fuel ≥ k, ∃ p m', alloc r n fuel m = some (p, m') ∧ InHeap r (.alloc n p) := by
  obtain ⟨⟨bs, owner, hc⟩, hin⟩ := run_heap (fun hh hs => hs _ hh.listed) run hu
  refine ⟨hin, bs, hc.heap.listed, fun n hn => ⟨fun hroom => ⟨bs.length, fun fuel hf => ?_⟩, ?_⟩⟩
  · obtain ⟨p, m', h, -⟩ := hc.heap.alloc_cases hn hf
    exact ⟨p, m', h, (inHeap_iff hc.heap hn h).mpr hroom⟩
  · rintro ⟨k, hk⟩
    obtain ⟨p, m', h, hp⟩ := hk k (Nat.le_refl k)
    exact (inHeap_iff hc.heap hn h).mp hp

theorem payloads_in_heap_first : ∃ m,
    Run (Step smallImage) (init smallImage fun _ => 0) [.alloc 10 (some 0x200012)] m ∧
      InHeap smallImage (.alloc 10 (some 0x200012)) := by
  obtain ⟨m, h⟩ := alloc_first
  refine ⟨m, .single (.alloc (by decide) h), (payloads_in_heap smallImage (fun _ => 0)
    (Run.single ⟨fun bs hl => ?_, .alloc (by decide) h⟩) (usesHeld_alloc _ _)).1 _
    (List.mem_singleton_self _)⟩
  rintro n p ⟨⟩
  rw [hl.unique (init_heap fun _ => 0).listed]
  exact roomFor_of_small (init_heap fun _ => 0) (by decide)

/-- Right after `init` a request for `2 ^ 32 - 1` bytes is granted. -/
theorem alloc_wraps_around : ∃ m,
    Run (Step smallImage) (init smallImage fun _ => 0) [.alloc 0xFFFFFFFF (some 0x200012)] m ∧
      UsesHeld [.alloc 0xFFFFFFFF (some 0x200012)] ∧
      ¬ InHeap smallImage (.alloc 0xFFFFFFFF (some 0x200012)) := by
  have hh := init_heap (r := smallImage) fun _ => 0
  have hno : ¬ Heap.RoomFor smallImage 0xFFFFFFFF [⟨smallImage.heapStart, 0, true⟩] := by
    simp [Heap.RoomFor, Block.fits, FirstFit.finish, Block.stop, smallImage, sizeof]
  obtain ⟨p, m, h, ⟨hroom, -⟩ | ⟨-, rfl⟩⟩ := hh.alloc_cases (n := 0xFFFFFFFF) (by omega)
    (Nat.le_refl _)
  · exact absurd hroom hno
  · refine ⟨m, Run.single (.alloc (by omega) h), usesHeld_alloc _ _, fun hin => ?_⟩
    have hle := (hin 0xFFFFFFFF 0x200012 rfl).2
    simp only [smallImage] at hle
    omega

end KernelAllocator
end RivOS
