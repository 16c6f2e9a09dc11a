import RivOS.Gen.Err
import RivOS.Mem.LiveBlocks
import RivOS.Support.AssocVec
import RivOS.Support.Cells
import RivOS.Support.Except
import RivOS.Support.Runs

/-!
# Gen — Vectors of any type

`Vector<T>` of `gen/vec.hpp`, on the kernel heap.  `eraseAt` moves the elements down from one past
the last on, and a vector that was moved from has a capacity of zero, which `pushBack` doubles.

* `contents`: read off the history, the list that each vector stands for.
* `Sound`: no vector is longer than its capacity, every element that was read was in its vector,
  every one that was written was in the block of it, and the vectors have their contents.
* `vectors_sound`: so it is in every state of a run whose steps are `Proper`.
* `vectors_hold`: with calls of `eraseAt` in it too, but that these read one element past the end.
-/

namespace RivOS

open KernelAllocator (Live Untouched)

/-- `Vector<T>`. -/
structure Vector where
  arr : Nat
  len : Nat
  capacity : Nat
deriving DecidableEq

namespace Vector

/-- A `T` that is copied as its bytes, and is in the 128 MiB of memory that there are. -/
structure ElemType (T : Type) extends Codec T where
  inMemory : sizeof ≤ 128 * 2 ^ 20

/-- An element that was read, with the length of the vector then, or one that was written, with the
number of bytes that its block was asked for. -/
inductive Touch where
  | read (ind len : Nat)
  | write (ind bytes : Nat)
deriving DecidableEq

/-- The kernel heap, with the blocks that have been handed out and not freed and the number of bytes
each was asked for, and the elements touched so far. -/
structure VecHeap where
  mem : Mem
  blocks : List (Nat × Nat)
  touched : List Touch

namespace VecHeap

def init (r : HeapRegion) (m : Mem) : VecHeap := ⟨KernelAllocator.init r m, [], []⟩

def alloc (r : HeapRegion) (n : Nat) (h : VecHeap) : Except Halt (Option Nat × VecHeap) := do
  let (p, mem) ← orHalt .undefined (KernelAllocator.alloc r n r.heapEnd h.mem)
  return (p, ⟨mem, (p.map (·, n)).toList ++ h.blocks, h.touched⟩)

def free (h : VecHeap) (p : Nat) : VecHeap :=
  ⟨KernelAllocator.free p h.mem, AssocVec.erase h.blocks p, h.touched⟩

/-- The bytes of the block at `p`, none where there is no block. -/
def bytesAt (h : VecHeap) (p : Nat) : Nat := (AssocVec.find h.blocks p).getD 0

end VecHeap

variable {T : Type}

section Operations

variable (C : ElemType T) (r : HeapRegion)

/-- `arr[ind]`, of a vector of the length `len`. -/
def getElem (arr ind len : Nat) (h : VecHeap) : T × VecHeap :=
  (C.read h.mem (arr + ind * C.sizeof), { h with touched := h.touched ++ [.read ind len] })

/-- `arr[ind] = elem`. -/
def setElem (arr ind : Nat) (elem : T) (h : VecHeap) : VecHeap :=
  { h with
    mem := C.write h.mem (arr + ind * C.sizeof) elem
    touched := h.touched ++ [.write ind (h.bytesAt arr)] }

/-- `d[i] = s[i + k]` for `n` indices from `i` on, where `s` is of a vector of the length `len`. -/
def copyElems (d s k len i n : Nat) (h : VecHeap) : VecHeap :=
  (List.range' i n).foldl (fun h i =>
    let (x, h) := getElem C s (i + k) len h
    setElem C d i x h) h

def BASE_VECTOR_SIZE : Nat := 5

/-- `Vector()`. -/
def construct (h : VecHeap) : Except Halt (Vector × VecHeap) := do
  let (arr, h) ← h.alloc r (BASE_VECTOR_SIZE * C.sizeof % 2 ^ 32)
  return (⟨arr.getD 0, 0, BASE_VECTOR_SIZE⟩, h)

/-- `operator[]`; `none` is an error. -/
def index (v : Vector) (ind : Nat) (h : VecHeap) : Option T × VecHeap :=
  if v.arr = 0 then (none, h)
  else if ind < v.len then
    let (x, h) := getElem C v.arr ind v.len h
    (some x, h)
  else (none, h)

/-- A full vector moves to an array twice as large. -/
def grow (v : Vector) (h : VecHeap) : Except Halt (Vector × VecHeap) :=
  if v.len ≥ v.capacity then do
    let (newArr, h) ← h.alloc r (v.capacity * 2 % 2 ^ 32 * C.sizeof % 2 ^ 32)
    match newArr with
    | none => kpanic "New array allocation failed in Vector."
    | some newArr =>
        let h := copyElems C newArr v.arr 0 v.len 0 v.len h
        return (⟨newArr, v.len, v.capacity * 2 % 2 ^ 32⟩, h.free v.arr)
  else return (v, h)

def pushBack (v : Vector) (elem : T) (h : VecHeap) : Except Halt (Vector × VecHeap) := do
  let (v, h) ← grow C r v h
  return ({ v with len := (v.len + 1) % 2 ^ 32 }, setElem C v.arr v.len elem h)

/-- `Vector(std::initializer_list<T>)`. -/
def ofList (list : List T) (h : VecHeap) : Except Halt (Vector × VecHeap) := do
  list.foldlM (fun (v, h) item => pushBack C r v item h) (← construct C r h)

/-- `operator=` of another vector. -/
def assign (v other : Vector) (h : VecHeap) : Except Halt (Vector × VecHeap) := do
  let h := h.free v.arr
  let (arr, h) ← h.alloc r (other.capacity * C.sizeof % 2 ^ 32)
  let arr := arr.getD 0
  return (⟨arr, other.len, other.capacity⟩, copyElems C arr other.arr 0 other.len 0 other.len h)

def popBack (v : Vector) : Vector := if v.len ≠ 0 then { v with len := v.len - 1 } else v

def eraseAt (v : Vector) (ind : Nat) (h : VecHeap) : Vector × VecHeap :=
  if ind ≥ v.len then (v, h)
  else ({ v with len := v.len - 1 }, copyElems C v.arr v.arr 1 v.len ind (v.len - ind) h)

/-- `other` after `Vector(Vector&& other)`. -/
def moved : Vector := ⟨0, 0, 0⟩

end Operations

/-! ### Runs -/

structure State where
  heap : VecHeap
  vecs : Nat → Option Vector

/-- The vectors are called by number. -/
inductive Op (T : Type) where
  | construct (i : Nat)
  | ofList (i : Nat) (list : List T)
  | pushBack (i : Nat) (elem : T)
  | popBack (i : Nat)
  | eraseAt (i ind : Nat)
  /-- `i = j`. -/
  | assign (i j : Nat)
  /-- `i` from `j`. -/
  | move (i j : Nat)
  | index (i ind : Nat)
  | destroy (i : Nat)

/-- The vector `i` is `v` now. -/
def State.put (s : State) (i : Nat) (v : Vector) (h : VecHeap) : State :=
  ⟨h, Function.update s.vecs i (some v)⟩

inductive Step (C : ElemType T) (r : HeapRegion) (s : State) : Op T → State → Prop where
  | construct {i : Nat} {v : Vector} {h : VecHeap} (hnew : s.vecs i = none)
      (hc : construct C r s.heap = .ok (v, h)) : Step C r s (.construct i) (s.put i v h)
  | ofList {i : Nat} {list : List T} {v : Vector} {h : VecHeap} (hnew : s.vecs i = none)
      (hc : ofList C r list s.heap = .ok (v, h)) : Step C r s (.ofList i list) (s.put i v h)
  | pushBack {i : Nat} {elem : T} {v v' : Vector} {h : VecHeap} (hi : s.vecs i = some v)
      (hc : pushBack C r v elem s.heap = .ok (v', h)) :
      Step C r s (.pushBack i elem) (s.put i v' h)
  | popBack {i : Nat} {v : Vector} (hi : s.vecs i = some v) :
      Step C r s (.popBack i) (s.put i v.popBack s.heap)
  | eraseAt {i : Nat} (ind : Nat) {v : Vector} (hi : s.vecs i = some v) :
      Step C r s (.eraseAt i ind) (s.put i (v.eraseAt C ind s.heap).1 (v.eraseAt C ind s.heap).2)
  | itself {i : Nat} {v : Vector} (hi : s.vecs i = some v) : Step C r s (.assign i i) s
  | assign {i j : Nat} {v v' w : Vector} {h : VecHeap} (hne : i ≠ j) (hi : s.vecs i = some v)
      (hj : s.vecs j = some w) (hc : assign C r v w s.heap = .ok (v', h)) :
      Step C r s (.assign i j) (s.put i v' h)
  | move {i j : Nat} {v : Vector} (hnew : s.vecs i = none) (hj : s.vecs j = some v) :
      Step C r s (.move i j) ((s.put i v s.heap).put j moved s.heap)
  | index {i : Nat} (ind : Nat) {v : Vector} (hi : s.vecs i = some v) :
      Step C r s (.index i ind) { s with heap := (v.index C ind s.heap).2 }
  | destroy {i : Nat} {v : Vector} (hi : s.vecs i = some v) :
      Step C r s (.destroy i) ⟨s.heap.free v.arr, Function.update s.vecs i none⟩

/-! ### What the vectors stand for -/

def contentsStep (f : Nat → List T) : Op T → Nat → List T
  | .construct i => Function.update f i []
  | .ofList i list => Function.update f i list
  | .pushBack i elem => Function.update f i (f i ++ [elem])
  | .popBack i => Function.update f i (f i).dropLast
  | .eraseAt i ind => Function.update f i ((f i).eraseIdx ind)
  | .assign i j => Function.update f i (f j)
  | .move i j => Function.update (Function.update f i (f j)) j []
  | .index _ _ => f
  | .destroy _ => f

def contents (es : List (Op T)) : Nat → List T := es.foldl contentsStep fun _ => []

/-- An element that is read is below the length, or among `past` elements behind, and one that is
written is in the block. -/
def Touch.Within (sizeof past : Nat) : Touch → Prop
  | .read ind len => ind < len + past
  | .write ind bytes => (ind + 1) * sizeof ≤ bytes

structure Sound (C : ElemType T) (past : Nat) (es : List (Op T)) (s : State) : Prop where
  len_le : ∀ i v, s.vecs i = some v → v.len ≤ v.capacity
  within : ∀ t ∈ s.heap.touched, t.Within C.sizeof past
  len : ∀ i v, s.vecs i = some v → v.len = (contents es i).length
  index : ∀ i v, s.vecs i = some v → ∀ ind, (v.index C ind s.heap).1 = (contents es i)[ind]?

/-- The heap has the `n` bytes. -/
def Served (r : HeapRegion) (n : Nat) (h : VecHeap) : Prop :=
  ∀ h', h.alloc r n ≠ .ok (none, h')

/-- A vector is made of elements, or gets those of another, only where the heap has room for them.
Nothing is put into a vector without an array or without a capacity.  Nothing is erased, unless
an element past the end may be read. -/
inductive Proper (C : ElemType T) (r : HeapRegion) (past : Nat) (s : State) : Op T → Prop where
  | construct (i : Nat) : Proper C r past s (.construct i)
  | ofList (i : Nat) {list : List T}
      (hs : list = [] ∨ Served r (BASE_VECTOR_SIZE * C.sizeof) s.heap) :
      Proper C r past s (.ofList i list)
  | pushBack {i : Nat} (elem : T) (hv : ∀ v, s.vecs i = some v → v.arr ≠ 0 ∧ v.capacity ≠ 0) :
      Proper C r past s (.pushBack i elem)
  | popBack (i : Nat) : Proper C r past s (.popBack i)
  | eraseAt {i ind : Nat} (hv : past ≠ 0 ∨ ∀ v, s.vecs i = some v → v.len ≤ ind) :
      Proper C r past s (.eraseAt i ind)
  | assign {i j : Nat} (hv : i = j ∨ ∀ v w, s.vecs i = some v → s.vecs j = some w →
      w.len = 0 ∨ Served r (w.capacity * C.sizeof) (s.heap.free v.arr)) :
      Proper C r past s (.assign i j)
  | move (i j : Nat) : Proper C r past s (.move i j)
  | index (i ind : Nat) : Proper C r past s (.index i ind)
  | destroy (i : Nat) : Proper C r past s (.destroy i)

/-! ### The heap -/

section Heap

variable {C : ElemType T} {r : HeapRegion} {h h' h'' : VecHeap} {e : Nat × Nat} {p q n past : Nat}

/-- The block `e` and its bytes are there still. -/
def Kept (e : Nat × Nat) (h h' : VecHeap) : Prop :=
  e ∈ h'.blocks ∧ ∀ x, e.1 ≤ x → x < e.1 + e.2 → h'.mem x = h.mem x

theorem Kept.trans (hk : Kept e h h') (hk' : Kept e h' h'') : Kept e h h'' :=
  ⟨hk'.1, fun x hlo hhi => (hk'.2 x hlo hhi).trans (hk.2 x hlo hhi)⟩

/-- Code that had the block at `p` has the one at `q` now, if these are not null; it is no other's,
and the others are kept. -/
def Replaces (p : Nat) (h : VecHeap) (q : Nat) (h' : VecHeap) : Prop :=
  ∀ e ∈ h.blocks, e.1 ≠ p → e.1 ≠ q ∧ Kept e h h'

theorem Replaces.refl (p : Nat) (h : VecHeap) : Replaces p h p h :=
  fun _ he hne => ⟨hne, he, fun _ _ _ => rfl⟩

theorem Replaces.trans {t : Nat} (hr : Replaces p h q h') (hr' : Replaces q h' t h'') :
    Replaces p h t h'' := by
  intro e he hne
  obtain ⟨hq, hk⟩ := hr e he hne
  obtain ⟨ht, hk'⟩ := hr' e hk.1 hq
  exact ⟨ht, hk.trans hk'⟩

structure Intact (C : ElemType T) (r : HeapRegion) (past : Nat) (h : VecHeap) : Prop where
  live : Live r h.mem h.blocks
  within : ∀ t ∈ h.touched, t.Within C.sizeof past

theorem intact_init (m : Mem) : Intact C r past (.init r m) :=
  ⟨KernelAllocator.live_init m, fun _ ht => absurd ht List.not_mem_nil⟩

theorem bytesAt_eq (hl : Live r h.mem h.blocks) (hp : (p, n) ∈ h.blocks) : h.bytesAt p = n := by
  obtain ⟨k, hk⟩ := AssocVec.exists_find_iff.mpr (List.mem_map_of_mem (f := Prod.fst) hp)
  rw [VecHeap.bytesAt, hk]
  exact hl.unique (AssocVec.mem_of_find hk) hp

theorem Intact.alloc {o : Option Nat} (hi : Intact C r past h) (hn : n ≤ 2 ^ 31)
    (ha : h.alloc r n = .ok (o, h')) :
    (o = none ∧ h' = h) ∨ ∃ p, o = some p ∧ p ≠ 0 ∧ Intact C r past h' ∧ (p, n) ∈ h'.blocks ∧
      ∀ e ∈ h.blocks, e.1 ≠ p ∧ Kept e h h' := by
  obtain ⟨⟨o', mem⟩, halloc, ha⟩ := bind_eq_ok.mp ha
  cases ha
  rcases hi.live.alloc (hi.live.room_of_le hn) (by omega) (orHalt_eq_ok.mp halloc) with
    ⟨rfl, rfl⟩ | ⟨p, rfl, hlive, hkeep⟩
  · exact .inl ⟨rfl, rfl⟩
  · refine .inr ⟨p, rfl, hlive.ne_zero List.mem_cons_self, ⟨hlive, hi.within⟩, List.mem_cons_self,
      fun e he => ⟨fun heq => ?_, .tail _ he, hkeep e he⟩⟩
    exact (List.nodup_cons.mp hlive.apart).1 (List.mem_map.mpr ⟨e, he, heq⟩)

/-- A block is freed, or nothing is. -/
theorem Intact.free (hi : Intact C r past h) (hp : p ≠ 0 → ∃ n, (p, n) ∈ h.blocks) :
    Intact C r past (h.free p) ∧ Replaces p h 0 (h.free p) := by
  have hne : ∀ e ∈ h.blocks, e.1 ≠ 0 := fun e he => hi.live.ne_zero he
  by_cases h0 : p = 0
  · subst h0
    obtain ⟨hlive, hkeep⟩ := hi.live.free_null
    have hsame : AssocVec.erase h.blocks 0 = h.blocks := AssocVec.erase_of_not_mem fun hm => by
      obtain ⟨e, he, heq⟩ := List.mem_map.mp hm
      exact hne e he heq
    refine ⟨⟨?_, hi.within⟩, fun e he _ => ⟨hne e he, ?_, hkeep e he⟩⟩
    · rw [VecHeap.free, hsame]
      exact hlive
    · rw [VecHeap.free, hsame]
      exact he
  · obtain ⟨n, hn⟩ := hp h0
    obtain ⟨k, hk⟩ := AssocVec.exists_find_iff.mpr (List.mem_map_of_mem (f := Prod.fst) hn)
    obtain ⟨pre, post, hsplit, herase⟩ := AssocVec.split_of_find hk
    have hperm : h.blocks.Perm ((p, k) :: AssocVec.erase h.blocks p) := by
      rw [herase, hsplit]
      exact List.perm_middle
    obtain ⟨hlive, hkeep⟩ := (hi.live.perm hperm).free
    refine ⟨⟨hlive, hi.within⟩, fun e he hep => ⟨hne e he, ?_, hkeep e (hperm.mem_iff.mp he)⟩⟩
    rcases List.mem_cons.mp (hperm.mem_iff.mp he) with rfl | hmem
    · exact absurd rfl hep
    · exact hmem

/-- A store into a block. -/
theorem Intact.write (hi : Intact C r past h) (hp : (p, n) ∈ h.blocks) (hb : h'.blocks = h.blocks)
    (hm : ∀ x, x < p ∨ p + n ≤ x → h'.mem x = h.mem x)
    (ht : ∀ t ∈ h'.touched, t ∈ h.touched ∨ t.Within C.sizeof past) :
    Intact C r past h' ∧ Replaces p h p h' := by
  obtain ⟨hlive, hkeep⟩ := hi.live.write hp hm
  refine ⟨⟨hb ▸ hlive, fun t hmem => (ht t hmem).elim (hi.within t) id⟩, fun e he hne => ?_⟩
  exact ⟨hne, hb ▸ he, hkeep e he hne⟩

end Heap

/-! ### The loops -/

section Loops

variable {C : ElemType T} {h : VecHeap} {d s k len i n : Nat} {t : Touch}

theorem copyElems_succ : copyElems C d s k len i (n + 1) h =
    setElem C d (i + n) (getElem C s (i + n + k) len (copyElems C d s k len i n h)).1
      (getElem C s (i + n + k) len (copyElems C d s k len i n h)).2 := by
  rw [copyElems, List.range'_1_concat, List.foldl_append]
  rfl

theorem copyElems_blocks : (copyElems C d s k len i n h).blocks = h.blocks := by
  induction n with
  | zero => rfl
  | succ n ih => rw [copyElems_succ]; exact ih

theorem copyElems_mem : (copyElems C d s k len i n h).mem =
    C.copy h.mem (d + i * C.sizeof) (s + (i + k) * C.sizeof) n := by
  induction n with
  | zero => rfl
  | succ n ih =>
      have hd : d + (i + n) * C.sizeof = d + i * C.sizeof + n * C.sizeof := by
        rw [Nat.add_mul, Nat.add_assoc]
      have hs : s + (i + n + k) * C.sizeof = s + (i + k) * C.sizeof + n * C.sizeof := by
        rw [Nat.add_right_comm i, Nat.add_mul _ n, Nat.add_assoc]
      rw [copyElems_succ, Codec.copy, ← ih, ← hd, ← hs]
      rfl

theorem copyElems_touched (ht : t ∈ (copyElems C d s k len i n h).touched) : t ∈ h.touched ∨
    ∃ j < i + n, t = .read (j + k) len ∨ t = .write j (h.bytesAt d) := by
  induction n with
  | zero => exact .inl ht
  | succ n ih =>
      have hbytes : (copyElems C d s k len i n h).bytesAt d = h.bytesAt d := by
        rw [VecHeap.bytesAt, copyElems_blocks, ← VecHeap.bytesAt]
      rw [copyElems_succ] at ht
      rcases List.mem_append.mp ht with ht | ht
      · rcases List.mem_append.mp ht with ht | ht
        · exact (ih ht).imp_right fun ⟨j, hj, h⟩ => ⟨j, by omega, h⟩
        · exact .inr ⟨i + n, by omega, .inl (List.mem_singleton.mp ht)⟩
      · refine .inr ⟨i + n, by omega, .inr ?_⟩
        rw [← hbytes]
        exact List.mem_singleton.mp ht

end Loops

/-! ### One vector -/

section One

variable {C : ElemType T} {r : HeapRegion} {past : Nat} {h h' : VecHeap} {v w : Vector}
  {xs ys : List T} {x : T} {p ind : Nat} {s : Vector × VecHeap}

/-- The vector has the elements `xs` in memory. -/
structure Stores (C : ElemType T) (h : VecHeap) (v : Vector) (xs : List T) : Prop where
  len : v.len = xs.length
  le : v.len ≤ v.capacity
  small : v.capacity * C.sizeof ≤ 2 ^ 30
  null : v.arr = 0 → v.len = 0
  block : v.arr ≠ 0 → (v.arr, v.capacity * C.sizeof) ∈ h.blocks
  elems : C.Holds h.mem v.arr xs

/-- What a call leaves that has turned a vector with the array `p` into the one of `s`, with the
elements `xs`. -/
structure Result (C : ElemType T) (r : HeapRegion) (past p : Nat) (h : VecHeap)
    (s : Vector × VecHeap) (xs : List T) : Prop where
  intact : Intact C r past s.2
  replaces : Replaces p h s.1.arr s.2
  stores : Stores C s.2 s.1 xs

theorem Result.trans (hr : Result C r past p h s xs) {s' : Vector × VecHeap}
    (hr' : Result C r past s.1.arr s.2 s' ys) : Result C r past p h s' ys :=
  ⟨hr'.intact, hr.replaces.trans hr'.replaces, hr'.stores⟩

theorem Stores.small_of_block (hi : Intact C r past h) {n : Nat} (hp : (p, n) ∈ h.blocks) :
    n ≤ 2 ^ 27 := by
  have := (hi.live.bounds hp).2
  have := r.memory
  omega

theorem Stores.kept (hs : Stores C h v xs)
    (hk : v.arr ≠ 0 → Kept (v.arr, v.capacity * C.sizeof) h h') : Stores C h' v xs where
  __ := hs
  block h0 := (hk h0).1
  elems := by
    by_cases h0 : v.arr = 0
    · obtain rfl : xs = [] := List.length_eq_zero_iff.mp (hs.len ▸ hs.null h0)
      exact Codec.holds_nil _ _
    · refine hs.elems.congr fun y hlo hhi => (hk h0).2 y hlo ?_
      have := Nat.mul_le_mul_right C.sizeof hs.le
      rw [← hs.len] at hhi
      dsimp only
      omega

/-- A loop that copies into a block. -/
theorem copyElems_intact {d b src k len i n : Nat} (hi : Intact C r past h)
    (hd : (d, b) ∈ h.blocks) (hin : (i + n) * C.sizeof ≤ b) (hk : i + n + k ≤ len + past) :
    Intact C r past (copyElems C d src k len i n h) ∧
      Replaces d h d (copyElems C d src k len i n h) := by
  rw [Nat.add_mul] at hin
  refine hi.write hd copyElems_blocks (fun y hy => ?_) fun t ht => ?_
  · rw [copyElems_mem]
    exact Codec.copy_of_not_mem (by omega)
  · refine (copyElems_touched ht).imp_right ?_
    rintro ⟨j, hj, rfl | rfl⟩
    · simp only [Touch.Within]
      omega
    · have := Nat.mul_le_mul_right C.sizeof (show j + 1 ≤ i + n from hj)
      rw [bytesAt_eq hi.live hd, Touch.Within]
      rw [Nat.add_mul i] at this
      omega

/-- A loop that copies all elements to another block. -/
theorem copyElems_all {d b c src : Nat} (hi : Intact C r past h) (hd : (d, b) ∈ h.blocks)
    (hsrc : (src, c) ∈ h.blocks) (hne : d ≠ src) (hx : C.Holds h.mem src xs)
    (hb : xs.length * C.sizeof ≤ b) (hc : xs.length * C.sizeof ≤ c) :
    Intact C r past (copyElems C d src 0 xs.length 0 xs.length h) ∧
      Replaces d h d (copyElems C d src 0 xs.length 0 xs.length h) ∧
      C.Holds (copyElems C d src 0 xs.length 0 xs.length h).mem d xs := by
  have hapart : d ≤ src ∨ src + xs.length * C.sizeof ≤ d := by
    by_contra hno
    exact hi.live.disjoint hsrc hd (Ne.symm hne) (x := d) (by omega) (by omega)
      ⟨Nat.le_refl _, by omega⟩
  obtain ⟨hi', hr⟩ : Intact C r past (copyElems C d src 0 xs.length 0 xs.length h) ∧
      Replaces d h d (copyElems C d src 0 xs.length 0 xs.length h) :=
    copyElems_intact hi hd (by rwa [Nat.zero_add]) (by omega)
  refine ⟨hi', hr, ?_⟩
  have hz : ∀ a, a + 0 * C.sizeof = a := fun a => by rw [Nat.zero_mul, Nat.add_zero]
  rw [copyElems_mem, Nat.add_zero, hz, hz]
  exact hx.copy hapart

/-- `Vector()`. -/
theorem construct_result (hi : Intact C r past h) (hc : construct C r h = .ok s) :
    Result C r past 0 h s [] ∧ s.1.capacity ≠ 0 ∧
      (Served r (BASE_VECTOR_SIZE * C.sizeof) h → s.1.arr ≠ 0) := by
  have hsize := C.inMemory
  have hbase : BASE_VECTOR_SIZE * C.sizeof ≤ 2 ^ 30 := by
    rw [BASE_VECTOR_SIZE]
    omega
  obtain ⟨⟨o, h₁⟩, ha, hc⟩ := bind_eq_ok.mp hc
  rw [Nat.mod_eq_of_lt (by omega)] at ha
  cases hc
  rcases hi.alloc (by omega) ha with ⟨rfl, rfl⟩ | ⟨p, rfl, h0, hi₁, hp, hkept⟩
  · exact ⟨⟨hi, .refl _ _, rfl, Nat.zero_le _, hbase, fun _ => rfl, fun h => absurd rfl h,
      Codec.holds_nil _ _⟩, Nat.succ_ne_zero 4, fun hs => absurd ha (hs _)⟩
  · exact ⟨⟨hi₁, fun e he _ => hkept e he, rfl, Nat.zero_le _, hbase, fun _ => rfl,
      fun _ => hp, Codec.holds_nil _ _⟩, Nat.succ_ne_zero 4, fun _ => h0⟩

theorem grow_result (hi : Intact C r past h) (hs : Stores C h v xs) (h0 : v.arr ≠ 0)
    (hcap : v.capacity ≠ 0) (hg : grow C r v h = .ok s) :
    Result C r past v.arr h s xs ∧ s.1.len < s.1.capacity ∧ s.1.arr ≠ 0 := by
  rw [grow] at hg
  split at hg
  swap
  · cases hg
    exact ⟨⟨hi, .refl _ _, hs⟩, by dsimp only; omega, h0⟩
  have hblock := hs.block h0
  have hsmall := Stores.small_of_block hi hblock
  have hcap' : v.capacity ≤ v.capacity * C.sizeof := Nat.le_mul_of_pos_right _ C.pos
  have hdouble : v.capacity * 2 * C.sizeof = v.capacity * C.sizeof * 2 := Nat.mul_right_comm ..
  obtain ⟨⟨o, h₁⟩, ha, hg⟩ := bind_eq_ok.mp hg
  rw [Nat.mod_eq_of_lt (by omega : v.capacity * 2 < 2 ^ 32)] at ha hg
  rw [hdouble, Nat.mod_eq_of_lt (by omega)] at ha
  rcases hi.alloc (by omega) ha with ⟨rfl, -⟩ | ⟨p, rfl, hp0, hi₁, hp, hkept⟩
  · cases hg
  cases hg
  have hlen : xs.length * C.sizeof ≤ v.capacity * C.sizeof :=
    Nat.mul_le_mul_right _ (hs.len ▸ hs.le)
  obtain ⟨hne, hkept₁⟩ := hkept _ hblock
  have hs₁ : Stores C h₁ v xs := hs.kept fun _ => hkept₁
  obtain ⟨hi₂, hr₂, hx₂⟩ := copyElems_all hi₁ hp hkept₁.1 (Ne.symm hne) hs₁.elems (by omega) hlen
  rw [← hs.len] at hi₂ hr₂ hx₂
  have hold := (hr₂ _ hkept₁.1 hne).2
  have hnew : (p, v.capacity * C.sizeof * 2) ∈ (copyElems C p v.arr 0 v.len 0 v.len h₁).blocks := by
    rw [copyElems_blocks]
    exact hp
  obtain ⟨hi₃, hr₃⟩ := hi₂.free fun _ => ⟨_, hold.1⟩
  have hkept₃ := (hr₃ _ hnew (Ne.symm hne)).2
  have hle := hs.le
  refine ⟨⟨hi₃, fun e he hep => ?_, hs.len, by dsimp only; omega, ?_, fun h => absurd h hp0,
    fun _ => ?_, ?_⟩, by dsimp only; omega, hp0⟩
  · obtain ⟨hne', hk₁⟩ := hkept e he
    have hk₂ := (hr₂ e hk₁.1 hne').2
    exact ⟨hne', (hk₁.trans hk₂).trans (hr₃ e hk₂.1 hep).2⟩
  · dsimp only
    omega
  · dsimp only
    rw [hdouble]
    exact hkept₃.1
  · refine hx₂.congr fun y hlo hhi => hkept₃.2 y hlo ?_
    dsimp only
    omega

/-- `pushBack` puts the element behind the others. -/
theorem pushBack_result (hi : Intact C r past h) (hs : Stores C h v xs) (h0 : v.arr ≠ 0)
    (hcap : v.capacity ≠ 0) (hp : pushBack C r v x h = .ok s) :
    Result C r past v.arr h s (xs ++ [x]) ∧ s.1.arr ≠ 0 ∧ s.1.capacity ≠ 0 := by
  obtain ⟨⟨v₁, h₁⟩, hg, hp⟩ := bind_eq_ok.mp hp
  obtain ⟨hr₁, hlt, h0₁⟩ := grow_result hi hs h0 hcap hg
  cases hp
  dsimp only at hlt h0₁
  obtain ⟨hi₁, hs₁⟩ : Intact C r past h₁ ∧ Stores C h₁ v₁ xs := ⟨hr₁.intact, hr₁.stores⟩
  have hblock := hs₁.block h0₁
  have hsmall := Stores.small_of_block hi₁ hblock
  have hcap₁ : v₁.capacity ≤ v₁.capacity * C.sizeof := Nat.le_mul_of_pos_right _ C.pos
  have hcell := Codec.cell_le (C := C.toCodec) hlt
  have hout : ∀ y, y < v₁.arr ∨ v₁.arr + v₁.capacity * C.sizeof ≤ y →
      (setElem C v₁.arr v₁.len x h₁).mem y = h₁.mem y := fun y hy =>
    Codec.write_of_not_mem (by omega)
  have htouched : ∀ t ∈ (setElem C v₁.arr v₁.len x h₁).touched,
      t ∈ h₁.touched ∨ t.Within C.sizeof past := by
    refine fun t ht => (List.mem_append.mp ht).imp_right fun ht => ?_
    rw [List.mem_singleton.mp ht, bytesAt_eq hi₁.live hblock, Touch.Within, Nat.succ_mul]
    exact hcell
  obtain ⟨hi₂, hr₂⟩ : Intact C r past (setElem C v₁.arr v₁.len x h₁) ∧
      Replaces v₁.arr h₁ v₁.arr (setElem C v₁.arr v₁.len x h₁) :=
    hi₁.write hblock rfl hout htouched
  have hmod : (v₁.len + 1) % 2 ^ 32 = v₁.len + 1 := Nat.mod_eq_of_lt (by omega)
  refine ⟨⟨hi₂, hr₁.replaces.trans hr₂, ?_, ?_, hs₁.small, fun h => absurd h h0₁, fun _ => hblock,
    ?_⟩, h0₁, Nat.ne_zero_of_lt hlt⟩
  · rw [hmod, List.length_append, List.length_singleton, hs₁.len]
  · rw [hmod]
    exact hlt
  · have := hs₁.elems.concat x
    rwa [← hs₁.len] at this

/-- `Vector(std::initializer_list<T>)`. -/
theorem ofList_result (hi : Intact C r past h)
    (hserved : xs = [] ∨ Served r (BASE_VECTOR_SIZE * C.sizeof) h)
    (hc : ofList C r xs h = .ok s) : Result C r past 0 h s xs := by
  obtain ⟨s₀, hc₀, hc⟩ := bind_eq_ok.mp hc
  obtain ⟨hr₀, hcap₀, harr₀⟩ := construct_result hi hc₀
  rcases hserved with rfl | hserved
  · cases hc
    exact hr₀
  · have hinv := foldlM_inv (P := fun l s => ∃ done, done ++ l = xs ∧
      Result C r past 0 h s done ∧ s.1.arr ≠ 0 ∧ s.1.capacity ≠ 0)
      (by
        rintro a l s t ⟨done, rfl, hr, h0, hcap⟩ hpush
        obtain ⟨hr', h0', hcap'⟩ := pushBack_result hr.intact hr.stores h0 hcap hpush
        exact ⟨done ++ [a], by rw [List.append_assoc]; rfl, hr.trans hr', h0', hcap'⟩)
      ⟨[], rfl, hr₀, harr₀ hserved, hcap₀⟩ hc
    obtain ⟨done, hdone, hr, -⟩ := hinv
    rw [List.append_nil] at hdone
    exact hdone ▸ hr

theorem popBack_stores (hs : Stores C h v xs) : Stores C h v.popBack xs.dropLast := by
  have hlen := hs.len
  have hle := hs.le
  rw [popBack]
  split
  · exact ⟨by rw [List.length_dropLast, hs.len], by dsimp only; omega, hs.small,
      fun h => by have := hs.null h; dsimp only; omega, hs.block, hs.elems.dropLast⟩
  next hzero =>
    obtain rfl : xs = [] := List.length_eq_zero_iff.mp (by omega)
    exact hs

/-- `eraseAt` reads one element past the end, if it erases one. -/
theorem eraseAt_result (hi : Intact C r past h) (hs : Stores C h v xs)
    (hover : past ≠ 0 ∨ v.len ≤ ind) :
    Result C r past v.arr h (v.eraseAt C ind h) (xs.eraseIdx ind) := by
  have hlen := hs.len
  rw [eraseAt]
  split
  next hge =>
    rw [List.eraseIdx_of_length_le (by omega)]
    exact ⟨hi, .refl _ _, hs⟩
  next hlt =>
    have hlt : ind < v.len := Nat.lt_of_not_le hlt
    have h0 : v.arr ≠ 0 := fun h => by
      have := hs.null h
      omega
    have hle := hs.le
    have hin : (ind + (v.len - ind)) * C.sizeof ≤ v.capacity * C.sizeof :=
      Nat.mul_le_mul_right _ (by omega)
    obtain ⟨hi', hr⟩ : Intact C r past (copyElems C v.arr v.arr 1 v.len ind (v.len - ind) h) ∧
        Replaces v.arr h v.arr (copyElems C v.arr v.arr 1 v.len ind (v.len - ind) h) :=
      copyElems_intact hi (hs.block h0) hin (by omega)
    refine ⟨hi', hr, ?_, Nat.le_trans (Nat.sub_le _ 1) hs.le, hs.small, fun h => absurd h h0,
      fun _ => ?_, ?_⟩
    · rw [List.length_eraseIdx_of_lt (by omega), hlen]
    · rw [copyElems_blocks]
      exact hs.block h0
    · rw [copyElems_mem, hlen]
      exact hs.elems.erase (by omega)

/-- `operator=`. -/
theorem assign_result (hi : Intact C r past h) (hv : Stores C h v xs) (hw : Stores C h w ys)
    (hne : w.arr = v.arr → w.arr = 0)
    (hserved : w.len = 0 ∨ Served r (w.capacity * C.sizeof) (h.free v.arr))
    (hc : assign C r v w h = .ok s) : Result C r past v.arr h s ys := by
  have hsmall := hw.small
  obtain ⟨hi₁, hr₁⟩ := hi.free fun h0 => ⟨_, hv.block h0⟩
  have hw₁ : Stores C (h.free v.arr) w ys :=
    hw.kept fun h0 => (hr₁ _ (hw.block h0) fun heq => h0 (hne heq)).2
  obtain ⟨⟨o, h₂⟩, ha, hc⟩ := bind_eq_ok.mp hc
  rw [Nat.mod_eq_of_lt (by omega)] at ha
  cases hc
  have hnil : w.len = 0 → ys = [] := fun hz => List.length_eq_zero_iff.mp (hw.len ▸ hz)
  rcases hi₁.alloc (by omega) ha with ⟨rfl, rfl⟩ | ⟨p, rfl, hp0, hi₂, hp, hkept⟩
  · have hz : w.len = 0 := hserved.elim id fun hs => absurd ha (hs _)
    rw [hnil hz, hz]
    exact ⟨hi₁, hr₁, rfl, Nat.zero_le _, hsmall, fun _ => rfl, fun h => absurd rfl h,
      Codec.holds_nil _ _⟩
  · have hr₂ : Replaces v.arr h p h₂ := fun e he hep => by
      have hk₁ := (hr₁ e he hep).2
      exact ⟨(hkept e hk₁.1).1, hk₁.trans (hkept e hk₁.1).2⟩
    by_cases h0 : w.arr = 0
    · have hz := hw.null h0
      rw [hnil hz, hz]
      exact ⟨hi₂, hr₂, rfl, Nat.zero_le _, hsmall, fun _ => rfl, fun _ => hp,
        Codec.holds_nil _ _⟩
    · obtain ⟨hne', hk⟩ := hkept _ (hw₁.block h0)
      have hlen : ys.length * C.sizeof ≤ w.capacity * C.sizeof :=
        Nat.mul_le_mul_right _ (hw.len ▸ hw.le)
      obtain ⟨hi₃, hr₃, hx⟩ := copyElems_all hi₂ hp hk.1 (Ne.symm hne')
        (hw₁.kept fun _ => hk).elems hlen hlen
      rw [← hw.len] at hi₃ hr₃ hx
      refine ⟨hi₃, hr₂.trans hr₃, hw.len, hw.le, hsmall, fun h => absurd h hp0, fun _ => ?_, hx⟩
      rw [copyElems_blocks]
      exact hp

/-- `operator[]`. -/
theorem index_result (hi : Intact C r past h) (hs : Stores C h v xs) (ind : Nat) :
    Result C r past v.arr h (v, (v.index C ind h).2) xs ∧ (v.index C ind h).1 = xs[ind]? := by
  have hsame : Result C r past v.arr h (v, h) xs := ⟨hi, .refl _ _, hs⟩
  have hlen := hs.len
  rw [index]
  split
  next h0 =>
    have := hs.null h0
    exact ⟨hsame, (List.getElem?_eq_none_iff.mpr (by omega)).symm⟩
  · split
    next hlt =>
      refine ⟨⟨⟨hi.live, fun t ht => ?_⟩, hsame.replaces, hs.len, hs.le, hs.small, hs.null, hs.block,
        hs.elems⟩, ?_⟩
      · rcases List.mem_append.mp ht with ht | ht
        · exact hi.within t ht
        · rw [List.mem_singleton.mp ht]
          exact Nat.lt_of_lt_of_le hlt (Nat.le_add_right _ _)
      · have hx : xs[ind]? = some xs[ind] := List.getElem?_eq_getElem (by omega)
        rw [hx]
        exact congrArg some (hs.elems ind _ hx)
    next hge => exact ⟨hsame, (List.getElem?_eq_none_iff.mpr (by omega)).symm⟩

end One

/-! ### Every run -/

section Runs

variable {C : ElemType T} {r : HeapRegion} {past : Nat} {es : List (Op T)} {e : Op T}
  {s s' : State} {v v' : Vector} {h' : VecHeap} {xs : List T} {i j p : Nat}

/-- The vectors have arrays of their own, with their contents in them. -/
structure Represents (C : ElemType T) (r : HeapRegion) (past : Nat) (es : List (Op T))
    (s : State) : Prop where
  intact : Intact C r past s.heap
  apart : ∀ i j v w, s.vecs i = some v → s.vecs j = some w → i ≠ j → v.arr = w.arr → v.arr = 0
  stores : ∀ i v, s.vecs i = some v → Stores C s.heap v (contents es i)

theorem represents_init (m : Mem) : Represents C r past [] ⟨.init r m, fun _ => none⟩ where
  intact := intact_init m
  apart _ _ _ _ h := by cases h
  stores _ _ h := by cases h

theorem Represents.sound (hr : Represents C r past es s) : Sound C past es s where
  len_le i v hv := (hr.stores i v hv).le
  within := hr.intact.within
  len i v hv := (hr.stores i v hv).len
  index i v hv ind := (index_result hr.intact (hr.stores i v hv) ind).2

theorem contents_concat : contents (es ++ [e]) = contentsStep (contents es) e := by
  rw [contents, List.foldl_append]
  rfl

theorem State.put_self : (s.put i v h').vecs i = some v := Function.update_self ..

theorem State.put_of_ne (hj : j ≠ i) : (s.put i v h').vecs j = s.vecs j :=
  Function.update_of_ne hj ..

/-- The vector `i` has become another; the array that it had is no other's. -/
theorem Represents.put (hr : Represents C r past es s)
    (hp : ∀ j w, s.vecs j = some w → i ≠ j → p = w.arr → p = 0)
    (hres : Result C r past p s.heap (v', h') xs)
    (hc : contents (es ++ [e]) = Function.update (contents es) i xs) :
    Represents C r past (es ++ [e]) (s.put i v' h') := by
  have hvec : ∀ {k w}, (s.put i v' h').vecs k = some w →
      (k = i ∧ w = v') ∨ (k ≠ i ∧ s.vecs k = some w) := by
    intro k w hw
    by_cases hk : k = i
    · subst hk
      exact .inl ⟨rfl, Option.some.inj (hw.symm.trans State.put_self)⟩
    · rw [State.put_of_ne hk] at hw
      exact .inr ⟨hk, hw⟩
  have hother : ∀ {k w}, k ≠ i → s.vecs k = some w → w.arr ≠ 0 →
      w.arr ≠ v'.arr ∧ Kept (w.arr, w.capacity * C.sizeof) s.heap h' := fun hk hw h0 =>
    hres.replaces _ ((hr.stores _ _ hw).block h0) fun heq =>
      h0 (heq.trans (hp _ _ hw (Ne.symm hk) heq.symm))
  refine ⟨hres.intact, fun k l w u hw hu hkl heq => ?_, fun k w hw => ?_⟩
  · rcases hvec hw with ⟨rfl, rfl⟩ | ⟨hk, hw'⟩ <;> rcases hvec hu with ⟨rfl, rfl⟩ | ⟨hl, hu'⟩
    · exact absurd rfl hkl
    · by_contra h0
      exact (hother hl hu' (heq ▸ h0)).1 heq.symm
    · by_contra h0
      exact (hother hk hw' h0).1 heq
    · exact hr.apart k l w u hw' hu' hkl heq
  · rw [hc]
    rcases hvec hw with ⟨rfl, rfl⟩ | ⟨hk, hw'⟩
    · rw [Function.update_self]
      exact hres.stores
    · rw [Function.update_of_ne hk]
      exact (hr.stores k w hw').kept fun h0 => (hother hk hw' h0).2

theorem Represents.move (hr : Represents C r past es s) (hnew : s.vecs i = none)
    (hj : s.vecs j = some v) :
    Represents C r past (es ++ [.move i j]) ((s.put i v s.heap).put j moved s.heap) := by
  have hij : i ≠ j := by
    rintro rfl
    rw [hnew] at hj
    cases hj
  have hvec : ∀ {k w}, ((s.put i v s.heap).put j moved s.heap).vecs k = some w →
      w = moved ∧ k = j ∨ k ≠ j ∧ ∃ l, s.vecs l = some w ∧ (k = i ∧ l = j ∨ k ≠ i ∧ k = l) := by
    intro k w hw
    by_cases hkj : k = j
    · subst hkj
      exact .inl ⟨Option.some.inj (hw.symm.trans State.put_self), rfl⟩
    · rw [State.put_of_ne hkj] at hw
      by_cases hki : k = i
      · subst hki
        rw [State.put_self] at hw
        cases hw
        exact .inr ⟨hkj, j, hj, .inl ⟨rfl, rfl⟩⟩
      · rw [State.put_of_ne hki] at hw
        exact .inr ⟨hkj, k, hw, .inr ⟨hki, rfl⟩⟩
  have hcontents : contents (es ++ [.move i j]) =
      Function.update (Function.update (contents es) i (contents es j)) j [] := contents_concat
  refine ⟨hr.intact, fun k l w u hw hu hkl heq => ?_, fun k w hw => ?_⟩
  · rcases hvec hw with ⟨rfl, rfl⟩ | ⟨hkj, k', hw', hk⟩
    · rfl
    · rcases hvec hu with ⟨rfl, rfl⟩ | ⟨hlj, l', hu', hl⟩
      · exact heq
      · exact hr.apart k' l' w u hw' hu' (by omega) heq
  · rw [hcontents]
    rcases hvec hw with ⟨rfl, rfl⟩ | ⟨hkj, k', hw', ⟨rfl, rfl⟩ | ⟨hki, rfl⟩⟩
    · rw [Function.update_self]
      exact ⟨rfl, Nat.le_refl _, by simp [moved], fun _ => rfl, fun h => absurd rfl h,
        Codec.holds_nil _ _⟩
    · rw [Function.update_of_ne hkj, Function.update_self]
      exact hr.stores _ w hw'
    · rw [Function.update_of_ne hkj, Function.update_of_ne hki]
      exact hr.stores k w hw'

theorem Represents.destroy (hr : Represents C r past es s) (hi : s.vecs i = some v) :
    Represents C r past (es ++ [.destroy i])
      ⟨s.heap.free v.arr, Function.update s.vecs i none⟩ := by
  have hvec : ∀ {k w}, Function.update s.vecs i none k = some w → k ≠ i ∧ s.vecs k = some w := by
    intro k w hw
    by_cases hk : k = i
    · rw [hk, Function.update_self] at hw
      cases hw
    · rw [Function.update_of_ne hk] at hw
      exact ⟨hk, hw⟩
  have hcontents : contents (es ++ [.destroy i]) = contents es := contents_concat
  obtain ⟨hi', hkept⟩ := hr.intact.free fun h0 => ⟨_, (hr.stores i v hi).block h0⟩
  refine ⟨hi', fun k l w u hw hu => hr.apart k l w u (hvec hw).2 (hvec hu).2, fun k w hw => ?_⟩
  obtain ⟨hk, hw⟩ := hvec hw
  rw [hcontents]
  refine (hr.stores k w hw).kept fun h0 => (hkept _ ((hr.stores k w hw).block h0) fun heq => ?_).2
  exact h0 (hr.apart k i w v hw hi hk heq)

/-- One operation. -/
theorem Represents.step (hr : Represents C r past es s) (hp : Proper C r past s e)
    (hs : Step C r s e s') : Represents C r past (es ++ [e]) s' := by
  have hnull : ∀ i j w, s.vecs j = some w → i ≠ j → 0 = w.arr → 0 = 0 := fun _ _ _ _ _ _ => rfl
  cases hs with
  | construct hnew hc =>
      exact hr.put (hnull _) (construct_result hr.intact hc).1 contents_concat
  | ofList hnew hc =>
      cases hp with
      | ofList _ hserved =>
          exact hr.put (hnull _) (ofList_result hr.intact hserved hc) contents_concat
  | @pushBack i elem v v' h hi hc =>
      cases hp with
      | pushBack _ hv =>
          obtain ⟨h0, hcap⟩ := hv v hi
          exact hr.put (fun j w => hr.apart i j v w hi)
            (pushBack_result hr.intact (hr.stores i v hi) h0 hcap hc).1 contents_concat
  | @popBack i v hi =>
      have harr : v.popBack.arr = v.arr := by
        rw [popBack]
        split <;> rfl
      refine hr.put (p := v.arr) (fun j w => hr.apart i j v w hi) ⟨hr.intact, ?_, ?_⟩
        contents_concat
      · rw [harr]
        exact .refl _ _
      · exact popBack_stores (hr.stores i v hi)
  | @eraseAt i ind v hi =>
      cases hp with
      | eraseAt hv =>
          exact hr.put (fun j w => hr.apart i j v w hi)
            (eraseAt_result hr.intact (hr.stores i v hi) (hv.imp_right fun h => h v hi))
            contents_concat
  | @itself i v hi =>
      have hsame : contents (es ++ [.assign i i]) = contents es :=
        contents_concat.trans (Function.update_eq_self ..)
      exact ⟨hr.intact, hr.apart, hsame ▸ hr.stores⟩
  | @assign i j v v' w h hne hi hj hc =>
      cases hp with
      | assign hv =>
          refine hr.put (fun j w => hr.apart i j v w hi)
            (assign_result hr.intact (hr.stores i v hi) (hr.stores j w hj) ?_ ?_ hc)
            contents_concat
          · exact hr.apart j i w v hj hi (Ne.symm hne)
          · exact hv.elim (fun h => absurd h hne) fun h => h v w hi hj
  | move hnew hj => exact hr.move hnew hj
  | @index i ind v hi =>
      have hvecs : Function.update s.vecs i (some v) = s.vecs := by
        rw [← hi, Function.update_eq_self]
      have hput := hr.put (e := .index i ind) (fun j w => hr.apart i j v w hi)
        (index_result hr.intact (hr.stores i v hi) ind).1
        (contents_concat.trans (Function.update_eq_self i _).symm)
      rwa [State.put, hvecs] at hput
  | destroy hi => exact hr.destroy hi

/-- The vectors stand for their contents, with erased elements too; an element that is erased is
erased with a read of the one past the end. -/
theorem vectors_hold {m : Mem} (past : Nat)
    (run : Run (Guarded (Proper C r past) (Step C r)) ⟨.init r m, fun _ => none⟩ es s) :
    Sound C past es s :=
  (run.invHist (I := Represents C r past) (represents_init m) fun _ hr h => hr.step h.1 h.2).sound

end Runs

/-! ### A vector of bytes -/

section Bytes

open KernelAllocator (smallImage)

def byte : ElemType UInt8 where
  sizeof := 1
  pos := Nat.one_pos
  encode x := [x]
  decode bs := bs.headD 0
  length_encode _ := rfl
  decode_encode _ := rfl
  inMemory := Nat.le_of_ble_eq_true rfl

def start : State := ⟨.init smallImage fun _ => 0, fun _ => none⟩

/-- The first array on the heap, and a block of no bytes behind it. -/
def first : Vector := ⟨0x200012, 0, 5⟩
def full : Vector := ⟨0x200020, 1, 0⟩

def firstHeap : VecHeap := leaves start.heap (construct byte smallImage start.heap)
def secondHeap : VecHeap := leaves start.heap (pushBack byte smallImage first 7 firstHeap)
def fullHeap : VecHeap := leaves start.heap (pushBack byte smallImage moved 7 firstHeap)

theorem construct_first : construct byte smallImage start.heap = .ok (first, firstHeap) :=
  eq_ok_leaves _ (by decide +kernel)

theorem pushBack_first :
    pushBack byte smallImage first 7 firstHeap = .ok ({ first with len := 1 }, secondHeap) :=
  eq_ok_leaves _ (by decide +kernel)

theorem pushBack_moved : pushBack byte smallImage moved 7 firstHeap = .ok (full, fullHeap) :=
  eq_ok_leaves _ (by decide +kernel)

theorem read_past : .read 1 1 ∈ ({ first with len := 1 }.eraseAt byte 0 secondHeap).2.touched := by
  decide +kernel

end Bytes

end Vector

end RivOS
