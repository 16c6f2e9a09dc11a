import Mathlib.Data.List.Perm.Subperm
import RivOS.Gen.Err
import RivOS.Lib.CString
import RivOS.Mem.LiveBlocks
import RivOS.Support.Except
import RivOS.Support.Loops
import RivOS.Support.Runs
import RivOS.Support.Shares

/-!
# Lib — Str

`Str` of `lib/str.hpp`, on the kernel heap.  The class has a destructor that frees the buffer, and no
copy constructor and no `operator=` of its own: a copy has the buffer of what it was copied from.  A
C string is assigned through a temporary `Str`, and `operator+=(Str)` has a copy of its own; both
are destroyed when the call is over.

* `texts`: read off the history, the text that was stored last in each string.
* `Sound`: no buffer is freed twice or under a live string, and every live string reads as its text.
* `strs_sound`: so it is in every state of a run whose steps are `Proper`.
-/

namespace RivOS.Lib

open KernelAllocator (Live Room Untouched)

/-! ### C strings in memory -/

def textFrom (m : Mem) : Nat → Nat → Option (List UInt8)
  | 0, _ => none
  | n + 1, p => if m p = 0 then some [] else (textFrom m n (p + 1)).map (m p :: ·)

/-- The string at `p`; there are `2 ^ 32` addresses. -/
def textAt (m : Mem) (p : Nat) : Option (List UInt8) := textFrom m (2 ^ 32) p

/-- Where the destination is in the source, behind its start, the copy runs ahead of itself and finds
no NUL. -/
def strcpyMem (m : Mem) (dest src : Nat) : Except Halt Mem := do
  let s ← orHalt .undefined (textAt m src)
  if src < dest ∧ dest ≤ src + s.length then .error .undefined else .ok (store m dest (s ++ [0]))

def stradd (m : Mem) (dest src : Nat) : Except Halt Mem := do
  let s ← orHalt .undefined (textAt m dest)
  strcpyMem m (dest + s.length) src

/-- The kernel heap, with the blocks it has handed out and the pointers `free` was called with. -/
structure LoggedHeap where
  mem : Mem
  allocated : List Nat
  freed : List Nat

namespace LoggedHeap

def init (r : HeapRegion) (m : Mem) : LoggedHeap := ⟨KernelAllocator.init r m, [], []⟩

def alloc (r : HeapRegion) (n : Nat) (h : LoggedHeap) : Except Halt (Option Nat × LoggedHeap) := do
  let (p, mem) ← orHalt .undefined (KernelAllocator.alloc r n r.heapEnd h.mem)
  return (p, ⟨mem, h.allocated ++ p.toList, h.freed⟩)

def free (p : Nat) (h : LoggedHeap) : LoggedHeap :=
  ⟨KernelAllocator.free p h.mem, h.allocated, h.freed ++ [p]⟩

end LoggedHeap

/-! ### The class -/

structure Str where
  cStr : Nat
  len : Nat
  capacity : Nat
deriving DecidableEq

namespace Str

def MINIMUM_STR_SIZE : Nat := 5

section Operations

variable (r : HeapRegion)

/-- A buffer that the constructors store `bytes` in, without a test. -/
def onHeap (capacity : Nat) (bytes : List UInt8) (len : Nat) (h : LoggedHeap) :
    Except Halt (Str × LoggedHeap) := do
  let (cStr, h) ← h.alloc r capacity
  match cStr with
  | none => .error .undefined
  | some cStr => return (⟨cStr, len, capacity⟩, { h with mem := store h.mem cStr bytes })

/-- `Str()`. -/
def empty (h : LoggedHeap) : Except Halt (Str × LoggedHeap) :=
  onHeap r MINIMUM_STR_SIZE (List.replicate 5 0) 0 h

def allocSize (s : CStr) : Nat :=
  if strlen s ≥ MINIMUM_STR_SIZE then (strlen s + MINIMUM_STR_SIZE) % 2 ^ 32 else MINIMUM_STR_SIZE

/-- `Str(const char*)`. -/
def ofCStr (s : CStr) (h : LoggedHeap) : Except Halt (Str × LoggedHeap) :=
  onHeap r (allocSize s) (s.chars ++ [0]) (strlen s) h

/-- `~Str`. -/
def destroy (t : Str) (h : LoggedHeap) : LoggedHeap := h.free t.cStr

/-- A turn of the loop that makes room for `n` more characters. -/
def growTurn (n : Nat) (s : Str × LoggedHeap) :
    Except Halt ((Str × LoggedHeap) ⊕ (Str × LoggedHeap)) :=
  let (t, h) := s
  if (t.len + n) % 2 ^ 32 ≥ t.capacity then do
    let (newArr, h) ← h.alloc r (t.capacity * 2 % 2 ^ 32)
    match newArr with
    | none => .error .undefined
    | some newArr =>
        let mem ← strcpyMem h.mem newArr t.cStr
        return .inl (⟨newArr, t.len, t.capacity * 2 % 2 ^ 32⟩, LoggedHeap.free t.cStr { h with mem })
  else return .inr (t, h)

/-- `operator+=(const char*)`.  A 32-bit number can be doubled 32 times. -/
def append (t : Str) (s : Nat) (h : LoggedHeap) : Except Halt (Str × LoggedHeap) := do
  let strlenOfS := (← orHalt .undefined (textAt h.mem s)).length
  let (t, h) ← turns (growTurn r strlenOfS) .undefined 33 (t, h)
  let mem ← stradd h.mem t.cStr s
  return ({ t with len := (t.len + strlenOfS) % 2 ^ 32 }, { h with mem })

/-- `operator+=(Str)`: the argument `s` is destroyed with the call. -/
def appendStr (t s : Str) (h : LoggedHeap) : Except Halt (Str × LoggedHeap) := do
  let (t, h) ← append r t s.cStr h
  return (t, destroy s h)

end Operations

/-! ### Runs -/

/-- The heap, and the strings there are. -/
structure State where
  heap : LoggedHeap
  strs : List (Nat × Str)

/-- The strings are called by number. -/
inductive Event where
  | empty (i : Nat)
  | constructed (i : Nat) (s : CStr)
  /-- `i = s`. -/
  | assignedText (i : Nat) (s : CStr)
  /-- `i = j`. -/
  | assigned (i j : Nat)
  /-- `i += Str(s)`. -/
  | appendedText (i : Nat) (s : CStr)
  /-- `i += j`. -/
  | appended (i j : Nat)
  | destroyed (i : Nat)

def put (strs : List (Nat × Str)) (i : Nat) (t : Str) : List (Nat × Str) :=
  AssocVec.erase strs i ++ [(i, t)]

inductive Step (r : HeapRegion) (s : State) : Event → State → Prop where
  | empty {i : Nat} {t : Str} {h : LoggedHeap} (hnew : i ∉ AssocVec.keys s.strs)
      (hc : empty r s.heap = .ok (t, h)) : Step r s (.empty i) ⟨h, s.strs ++ [(i, t)]⟩
  | constructed {i : Nat} {x : CStr} {t : Str} {h : LoggedHeap} (hnew : i ∉ AssocVec.keys s.strs)
      (hc : ofCStr r x s.heap = .ok (t, h)) : Step r s (.constructed i x) ⟨h, s.strs ++ [(i, t)]⟩
  | assignedText {i : Nat} {x : CStr} {t : Str} {h : LoggedHeap} (hi : i ∈ AssocVec.keys s.strs)
      (hc : ofCStr r x s.heap = .ok (t, h)) :
      Step r s (.assignedText i x) ⟨destroy t h, put s.strs i t⟩
  | assigned {i j : Nat} {t : Str} (hi : i ∈ AssocVec.keys s.strs)
      (hj : AssocVec.find s.strs j = some t) : Step r s (.assigned i j) ⟨s.heap, put s.strs i t⟩
  | appendedText {i : Nat} {x : CStr} {t t' u : Str} {h h' : LoggedHeap}
      (hi : AssocVec.find s.strs i = some t) (hc : ofCStr r x s.heap = .ok (u, h))
      (ha : appendStr r t u h = .ok (t', h')) :
      Step r s (.appendedText i x) ⟨h', put s.strs i t'⟩
  | appended {i j : Nat} {t t' u : Str} {h : LoggedHeap} (hi : AssocVec.find s.strs i = some t)
      (hj : AssocVec.find s.strs j = some u) (ha : appendStr r t u s.heap = .ok (t', h)) :
      Step r s (.appended i j) ⟨h, put s.strs i t'⟩
  | destroyed {i : Nat} {t : Str} (hi : AssocVec.find s.strs i = some t) :
      Step r s (.destroyed i) ⟨destroy t s.heap, AssocVec.erase s.strs i⟩

/-! ### What was stored -/

def textsStep (f : Nat → List UInt8) : Event → Nat → List UInt8
  | .empty i => Function.update f i []
  | .constructed i s | .assignedText i s => Function.update f i s.chars
  | .assigned i j => Function.update f i (f j)
  | .appendedText i s => Function.update f i (f i ++ s.chars)
  | .appended i j => Function.update f i (f i ++ f j)
  | .destroyed _ => f

/-- The text last stored in each string. -/
def texts (es : List Event) : Nat → List UInt8 := es.foldl textsStep fun _ => []

/-- Every pointer has been freed no more often than it was handed out, and once less if a live
string has it; and the live strings have blocks that are in use, with their texts in them. -/
structure Sound (r : HeapRegion) (es : List Event) (s : State) : Prop where
  freed : ∀ p, s.heap.freed.count p + (if p ∈ s.strs.map (·.2.cStr) then 1 else 0) ≤
    s.heap.allocated.count p
  inUse : ∀ e ∈ s.strs, KernelAllocator.InUse r s.heap.mem e.2.cStr
  reads : ∀ e ∈ s.strs, textAt s.heap.mem e.2.cStr = some (texts es e.1)

/-- No other live string has the buffer of `i`. -/
def Alone (s : State) (i : Nat) : Prop :=
  ∀ e ∈ s.strs, ∀ t, AssocVec.find s.strs i = some t → e.1 ≠ i → e.2.cStr ≠ t.cStr

/-- The heap can serve or refuse the buffer for `x`. -/
def Served (r : HeapRegion) (s : State) (x : CStr) : Prop :=
  strlen x + MINIMUM_STR_SIZE < 2 ^ 32 ∧ Room r (allocSize x) s.heap.mem

/-- No text is assigned and no string is appended by value; what is appended to or destroyed has its
buffer for itself, or nothing is appended. -/
inductive Proper (r : HeapRegion) (s : State) : Event → Prop where
  | empty (i : Nat) : Proper r s (.empty i)
  | constructed (i : Nat) {x : CStr} (hx : Served r s x) : Proper r s (.constructed i x)
  | assigned (i j : Nat) : Proper r s (.assigned i j)
  | appendedText {i : Nat} {x : CStr} (hx : Served r s x) (ha : x.chars = [] ∨ Alone s i) :
      Proper r s (.appendedText i x)
  | destroyed {i : Nat} (ha : Alone s i) : Proper r s (.destroyed i)

/-! ### Strings in memory -/

section Reading

variable {m m' : Mem} {x y : List UInt8} {p n : Nat} {t : Str}

theorem textFrom_of_load (h0 : 0 ∉ x) (hl : load m p (x.length + 1) = x ++ [0])
    (hn : x.length < n) : textFrom m n p = some x := by
  induction x generalizing p n with
  | nil =>
      obtain ⟨n, rfl⟩ : ∃ k, n = k + 1 := ⟨n - 1, by simp only [List.length_nil] at hn; omega⟩
      rw [textFrom, if_pos (List.cons.inj hl).1]
  | cons c x ih =>
      obtain ⟨n, rfl⟩ : ∃ k, n = k + 1 := ⟨n - 1, by simp only [List.length_cons] at hn; omega⟩
      obtain ⟨hc, hx⟩ := List.ne_and_not_mem_of_not_mem_cons h0
      obtain ⟨hm, hl⟩ := List.cons.inj hl
      rw [textFrom, if_neg (by rw [hm]; exact Ne.symm hc),
        ih hx hl (by simp only [List.length_cons] at hn; omega), hm]
      rfl

/-- The text `x` is in the buffer of `t`. -/
structure Reads (m : Mem) (t : Str) (x : List UInt8) : Prop where
  len : t.len = x.length
  fits : x.length < t.capacity
  nulFree : 0 ∉ x
  bytes : load m t.cStr (x.length + 1) = x ++ [0]

theorem Reads.textAt (h : Reads m t x) (hcap : t.capacity ≤ 2 ^ 32) :
    textAt m t.cStr = some x :=
  textFrom_of_load h.nulFree h.bytes (Nat.lt_of_lt_of_le h.fits hcap)

theorem Reads.congr (h : Reads m t x)
    (hm : ∀ a, t.cStr ≤ a → a < t.cStr + t.capacity → m' a = m a) : Reads m' t x where
  __ := h
  bytes := by
    rw [← h.bytes]
    have := h.fits
    exact load_congr fun a hlo hhi => hm a hlo (by omega)

/-- More text behind the text. -/
theorem load_store_behind (h : load m p (x.length + 1) = x ++ [0]) :
    load (store m (p + x.length) (y ++ [0])) p ((x ++ y).length + 1) = x ++ y ++ [0] := by
  have hx : load m p x.length = x := by
    rw [load_add] at h
    exact (List.append_inj h length_load).1
  have hfront : load (store m (p + x.length) (y ++ [0])) p x.length = load m p x.length :=
    load_congr fun a _ hhi => store_of_not_mem (.inl hhi)
  have hback : load (store m (p + x.length) (y ++ [0])) (p + x.length) (y ++ [0]).length =
      y ++ [0] := load_store
  rw [List.length_append, List.length_singleton] at hback
  rw [List.length_append, Nat.add_assoc, load_add, hfront, hx, hback, List.append_assoc]

end Reading

/-! ### The heap and its log -/

section Owning

variable {r : HeapRegion} {h h' : LoggedHeap} {l l' : List (Nat × Nat)} {p n k : Nat} {m' : Mem}

/-- The payloads `l` are in use, and each has been handed out once more often than freed. -/
structure Owns (r : HeapRegion) (h : LoggedHeap) (l : List (Nat × Nat)) : Prop where
  live : Live r h.mem l
  ledger : ∃ lost, h.allocated.Perm (h.freed ++ l.map Prod.fst ++ lost)

theorem owns_init (m : Mem) : Owns r (.init r m) [] :=
  ⟨KernelAllocator.live_init m, [], .nil⟩

theorem Owns.perm (ho : Owns r h l) (hp : l.Perm l') : Owns r h l' where
  live := ho.live.perm hp
  ledger := ho.ledger.imp fun _ hl => hl.trans (((hp.map _).append_left _).append_right _)

/-- Some of the payloads are forgotten. -/
theorem Owns.lose (ho : Owns r h l) (hd : l'.Nodup) (hs : l' ⊆ l) : Owns r h l' := by
  obtain ⟨sub, hsub, hs⟩ := List.subperm_of_subset hd hs
  obtain ⟨rest, hrest⟩ := hs.exists_perm_append
  have hrest := hrest.trans (hsub.append_right rest)
  obtain ⟨lost, hl⟩ := ho.ledger
  have hmap : (l.map Prod.fst).Perm (l'.map Prod.fst ++ rest.map Prod.fst) := by
    rw [← List.map_append]
    exact hrest.map _
  refine ⟨(ho.live.perm hrest).sublist (List.sublist_append_left ..), rest.map Prod.fst ++ lost,
    hl.trans ?_⟩
  rw [← List.append_assoc (h.freed ++ _), List.append_assoc h.freed (l'.map _)]
  exact (hmap.append_left _).append_right _

theorem Owns.alloc {q : Option Nat} (ho : Owns r h l) (hroom : Room r n h.mem) (hn : n < 2 ^ 32)
    (ha : h.alloc r n = .ok (q, h')) :
    q = none ∨ ∃ p, q = some p ∧ Owns r h' ((p, n) :: l) ∧ Untouched l h.mem h'.mem := by
  obtain ⟨⟨q', mem⟩, halloc, ha⟩ := bind_eq_ok.mp ha
  cases ha
  rcases ho.live.alloc hroom hn (orHalt_eq_ok.mp halloc) with ⟨rfl, -⟩ | ⟨p, rfl, hlive, hkeep⟩
  · exact .inl rfl
  · obtain ⟨lost, hl⟩ := ho.ledger
    refine .inr ⟨p, rfl, ⟨hlive, lost, ?_⟩, hkeep⟩
    have hp : (h.freed ++ p :: l.map Prod.fst ++ lost).Perm
        (p :: (h.freed ++ l.map Prod.fst ++ lost)) :=
      List.perm_middle.append_right lost
    exact ((hl.append_right _).trans (List.perm_append_singleton _ _)).trans hp.symm

theorem Owns.free (ho : Owns r h ((p, n) :: l)) :
    Owns r (h.free p) l ∧ Untouched l h.mem (h.free p).mem := by
  obtain ⟨hlive, hkeep⟩ := ho.live.free
  obtain ⟨lost, hl⟩ := ho.ledger
  refine ⟨⟨hlive, lost, ?_⟩, hkeep.mono (List.subset_cons_self _ _)⟩
  rw [LoggedHeap.free, List.append_assoc h.freed, List.singleton_append]
  exact hl

/-- A store into the first of the payloads. -/
theorem Owns.write (ho : Owns r h ((p, n) :: l))
    (hm : ∀ x, x < p ∨ p + n ≤ x → m' x = h.mem x) :
    Owns r { h with mem := m' } ((p, n) :: l) ∧ Untouched l h.mem m' := by
  obtain ⟨hlive, hkeep⟩ := ho.live.write List.mem_cons_self hm
  refine ⟨⟨hlive, ho.ledger⟩, fun e he => hkeep e (.tail _ he) fun heq => ?_⟩
  exact (List.nodup_cons.mp ho.live.apart).1 (List.mem_map.mpr ⟨e, he, heq⟩)

end Owning

/-! ### What the operations leave -/

section Operations

variable {r : HeapRegion} {h h' : LoggedHeap} {l : List (Nat × Nat)} {t t' u : Str}
  {x y : List UInt8} {n k len : Nat}

/-- The block of a string, with the number of bytes it was asked for. -/
def buf (t : Str) : Nat × Nat := (t.cStr, t.capacity)

theorem Owns.capacity_le (ho : Owns r h l) (ht : t.buf ∈ l) : t.capacity ≤ 2 ^ 27 := by
  have := (ho.live.bounds ht).2
  have := r.memory
  omega

theorem Reads.untouched (hx : Reads h.mem t x) (ht : t.buf ∈ l) (hkeep : Untouched l h.mem h'.mem) :
    Reads h'.mem t x :=
  hx.congr fun a hlo hhi => hkeep _ ht a hlo hhi

theorem strcpyMem_ok {m m' : Mem} {dest src : Nat} (hx : textAt m src = some x)
    (hc : strcpyMem m dest src = .ok m') : m' = store m dest (x ++ [0]) := by
  rw [strcpyMem, hx] at hc
  obtain ⟨_, hs, hc⟩ := bind_eq_ok.mp hc
  cases hs
  split at hc <;> cases hc
  rfl

theorem onHeap_owns {bytes : List UInt8} (ho : Owns r h l) (hroom : Room r n h.mem)
    (hn : n < 2 ^ 32) (hb : bytes.length ≤ n) (hc : onHeap r n bytes len h = .ok (t, h')) :
    (t.len = len ∧ t.capacity = n) ∧ Owns r h' (t.buf :: l) ∧ Untouched l h.mem h'.mem ∧
      load h'.mem t.cStr bytes.length = bytes := by
  obtain ⟨⟨q, h₁⟩, ha, hc⟩ := bind_eq_ok.mp hc
  rcases ho.alloc hroom hn ha with rfl | ⟨p, rfl, ho₁, hkeep₁⟩
  · cases hc
  · cases hc
    have hout : ∀ x, x < p ∨ p + n ≤ x → store h₁.mem p bytes x = h₁.mem x :=
      fun x hx => store_of_not_mem (by omega)
    obtain ⟨ho₂, hkeep₂⟩ := ho₁.write hout
    exact ⟨⟨rfl, rfl⟩, ho₂, hkeep₁.trans hkeep₂, load_store⟩

/-- `Str()`. -/
theorem empty_owns (ho : Owns r h l) (hc : empty r h = .ok (t, h')) :
    Owns r h' (t.buf :: l) ∧ Untouched l h.mem h'.mem ∧ Reads h'.mem t [] := by
  obtain ⟨⟨hlen, hcap⟩, ho', hkeep, hbytes⟩ :=
    onHeap_owns ho (ho.live.room_of_le (by decide)) (by decide) (by decide) hc
  refine ⟨ho', hkeep, hlen, hcap ▸ (by decide), List.not_mem_nil, ?_⟩
  exact (List.cons.inj hbytes).1 ▸ rfl

theorem strlen_lt_allocSize {s : CStr} (hs : strlen s + MINIMUM_STR_SIZE < 2 ^ 32) :
    s.chars.length < allocSize s ∧ allocSize s < 2 ^ 32 := by
  have hmin : MINIMUM_STR_SIZE = 5 := rfl
  rw [allocSize, Nat.mod_eq_of_lt hs]
  simp only [strlen, hmin] at hs ⊢
  split <;> omega

/-- `Str(const char*)`. -/
theorem ofCStr_owns {s : CStr} (ho : Owns r h l) (hs : strlen s + MINIMUM_STR_SIZE < 2 ^ 32)
    (hroom : Room r (allocSize s) h.mem) (hc : ofCStr r s h = .ok (t, h')) :
    Owns r h' (t.buf :: l) ∧ Untouched l h.mem h'.mem ∧ Reads h'.mem t s.chars := by
  obtain ⟨hlt, hsize⟩ := strlen_lt_allocSize hs
  have hlength : (s.chars ++ [0]).length = s.chars.length + 1 := List.length_append
  obtain ⟨⟨hlen, hcap⟩, ho', hkeep, hbytes⟩ := onHeap_owns ho hroom hsize (by omega) hc
  rw [hlength] at hbytes
  exact ⟨ho', hkeep, hlen, hcap ▸ hlt, s.nulFree, hbytes⟩

/-- `~Str`. -/
theorem destroy_owns (ho : Owns r h (t.buf :: l)) :
    Owns r (destroy t h) l ∧ Untouched l h.mem (destroy t h).mem :=
  ho.free

/-- A turn of the loop moves the text into twice the room. -/
theorem growTurn_owns {s : Str × LoggedHeap} (ho : Owns r h (t.buf :: l)) (hx : Reads h.mem t x)
    (hg : growTurn r n (t, h) = .ok (.inl s)) :
    Owns r s.2 (s.1.buf :: l) ∧ Untouched l h.mem s.2.mem ∧ Reads s.2.mem s.1 x := by
  have hcap := ho.capacity_le List.mem_cons_self
  simp only [growTurn] at hg
  split at hg
  swap
  · cases hg
  obtain ⟨⟨q, h₁⟩, ha, hg⟩ := bind_eq_ok.mp hg
  rw [Nat.mod_eq_of_lt (by omega : t.capacity * 2 < 2 ^ 32)] at ha hg
  rcases ho.alloc (ho.live.room_of_le (by omega)) (by omega) ha with rfl | ⟨p, rfl, ho₁, hkeep₁⟩
  · cases hg
  obtain ⟨mem, hcpy, hg⟩ := bind_eq_ok.mp hg
  cases hg
  have hx₁ : Reads h₁.mem t x := hx.untouched List.mem_cons_self hkeep₁
  obtain rfl := strcpyMem_ok (hx₁.textAt (by omega)) hcpy
  have hlength : (x ++ [0]).length = x.length + 1 := List.length_append
  have hfits := hx.fits
  have hout : ∀ a, a < p ∨ p + t.capacity * 2 ≤ a → store h₁.mem p (x ++ [0]) a = h₁.mem a :=
    fun a ha => store_of_not_mem (by omega)
  obtain ⟨ho₂, hkeep₂⟩ := ho₁.write hout
  have hx₂ : Reads (store h₁.mem p (x ++ [0])) ⟨p, t.len, t.capacity * 2⟩ x :=
    ⟨hx.len, by simp only; omega, hx.nulFree, hlength ▸ load_store⟩
  obtain ⟨ho₃, hkeep₃⟩ := (ho₂.perm (List.Perm.swap ..)).free
  have hsub : l ⊆ t.buf :: l := List.subset_cons_self _ _
  refine ⟨ho₃, ((hkeep₁.mono hsub).trans (hkeep₂.mono hsub)).trans
    (hkeep₃.mono (List.subset_cons_self _ _)), ?_⟩
  exact hx₂.congr fun a hlo hhi => hkeep₃ _ List.mem_cons_self a hlo hhi

/-- The loop is left with room for `n` more characters. -/
theorem grow_owns {s : Str × LoggedHeap} (ho : Owns r h (t.buf :: l)) (hx : Reads h.mem t x)
    (hg : turns (growTurn r n) .undefined k (t, h) = .ok s) :
    Owns r s.2 (s.1.buf :: l) ∧ Untouched l h.mem s.2.mem ∧ Reads s.2.mem s.1 x ∧
      (x.length + n) % 2 ^ 32 < s.1.capacity := by
  refine turns_inv (I := fun s : Str × LoggedHeap => Owns r s.2 (s.1.buf :: l) ∧
    Untouched l h.mem s.2.mem ∧ Reads s.2.mem s.1 x) (Q := fun s => Owns r s.2 (s.1.buf :: l) ∧
    Untouched l h.mem s.2.mem ∧ Reads s.2.mem s.1 x ∧ (x.length + n) % 2 ^ 32 < s.1.capacity)
    ?_ ?_ ⟨ho, .refl _ _, hx⟩ hg
  · rintro ⟨t₁, h₁⟩ s₂ ⟨ho₁, hkeep₁, hx₁⟩ hturn
    obtain ⟨ho₂, hkeep₂, hx₂⟩ := growTurn_owns ho₁ hx₁ hturn
    exact ⟨ho₂, hkeep₁.trans hkeep₂, hx₂⟩
  · rintro ⟨t₁, h₁⟩ s₂ ⟨ho₁, hkeep₁, hx₁⟩ hturn
    simp only [growTurn] at hturn
    split at hturn
    · obtain ⟨⟨q, h₂⟩, -, hturn⟩ := bind_eq_ok.mp hturn
      cases q with
      | none => cases hturn
      | some p =>
          obtain ⟨_, -, hturn⟩ := bind_eq_ok.mp hturn
          cases hturn
    · next hroom =>
      cases hturn
      exact ⟨ho₁, hkeep₁, hx₁, hx₁.len ▸ Nat.lt_of_not_le hroom⟩

/-- `operator+=(const char*)` of a string that another buffer has. -/
theorem append_owns (ho : Owns r h (t.buf :: l)) (hx : Reads h.mem t x) (hu : u.buf ∈ l)
    (hy : Reads h.mem u y) (ha : append r t u.cStr h = .ok (t', h')) :
    Owns r h' (t'.buf :: l) ∧ Untouched l h.mem h'.mem ∧ Reads h'.mem t' (x ++ y) := by
  have hcap : u.capacity ≤ 2 ^ 27 := ho.capacity_le (.tail _ hu)
  obtain ⟨_, hs, ha⟩ := bind_eq_ok.mp ha
  rw [hy.textAt (by omega)] at hs
  cases hs
  obtain ⟨⟨t₁, h₁⟩, hgrow, ha⟩ := bind_eq_ok.mp ha
  obtain ⟨ho₁, hkeep₁, hx₁, hroom⟩ := grow_owns ho hx hgrow
  dsimp only at ho₁ hkeep₁ hx₁ hroom
  have hcap₁ := ho₁.capacity_le List.mem_cons_self
  have hy₁ : Reads h₁.mem u y := hy.untouched hu hkeep₁
  have hfits := hx₁.fits
  have hyfits := hy.fits
  have hlt : x.length + y.length < 2 ^ 32 := by omega
  rw [Nat.mod_eq_of_lt hlt] at hroom
  obtain ⟨mem, hadd, ha⟩ := bind_eq_ok.mp ha
  cases ha
  obtain ⟨_, hs, hadd⟩ := bind_eq_ok.mp hadd
  rw [hx₁.textAt (by omega)] at hs
  cases hs
  obtain rfl := strcpyMem_ok (hy₁.textAt (by omega)) hadd
  have hlength : (y ++ [0]).length = y.length + 1 := List.length_append
  have hout : ∀ a, a < t₁.cStr ∨ t₁.cStr + t₁.capacity ≤ a →
      store h₁.mem (t₁.cStr + x.length) (y ++ [0]) a = h₁.mem a :=
    fun a ha => store_of_not_mem (by omega)
  obtain ⟨ho₂, hkeep₂⟩ := ho₁.write hout
  refine ⟨ho₂, hkeep₁.trans hkeep₂, ?_, ?_, ?_, load_store_behind hx₁.bytes⟩
  · rw [hx₁.len, List.length_append, Nat.mod_eq_of_lt hlt]
  · rw [List.length_append]
    exact hroom
  · rw [List.mem_append]
    exact not_or.mpr ⟨hx₁.nulFree, hy.nulFree⟩

/-- Nothing is appended. -/
theorem append_nil (ho : Owns r h (u.buf :: l)) (hx : Reads h.mem t x) (ht : t.buf ∈ l)
    (hy : Reads h.mem u []) (ha : append r t u.cStr h = .ok (t', h')) : t' = t ∧ h' = h := by
  have hcap : u.capacity ≤ 2 ^ 27 := ho.capacity_le List.mem_cons_self
  have hcap' : t.capacity ≤ 2 ^ 27 := ho.capacity_le (.tail _ ht)
  have hfits := hx.fits
  have hlen := hx.len
  obtain ⟨_, hs, ha⟩ := bind_eq_ok.mp ha
  rw [hy.textAt (by omega)] at hs
  cases hs
  have hturn : growTurn r 0 (t, h) = .ok (.inr (t, h)) := by
    simp only [growTurn]
    exact if_neg (by omega)
  obtain ⟨_, hgrow, ha⟩ := bind_eq_ok.mp ha
  rw [List.length_nil, turns, hturn] at hgrow
  cases hgrow
  obtain ⟨mem, hadd, ha⟩ := bind_eq_ok.mp ha
  cases ha
  obtain ⟨_, hs, hadd⟩ := bind_eq_ok.mp hadd
  rw [hx.textAt (by omega)] at hs
  cases hs
  obtain rfl := strcpyMem_ok (hy.textAt (by omega)) hadd
  have hnul : load h.mem (t.cStr + x.length) 1 = [0] := by
    have hb := hx.bytes
    rw [load_add] at hb
    exact (List.append_inj hb length_load).2
  have hmem : store h.mem (t.cStr + x.length) [0] = h.mem := by
    rw [← hnul]
    exact store_load
  constructor
  · rw [List.length_nil, Nat.add_zero, Nat.mod_eq_of_lt (by omega)]
  · rw [List.nil_append, hmem]

end Operations

/-! ### Every run -/

section Runs

open Shares (held)

variable {r : HeapRegion} {es : List Event} {e : Event} {s s' : State} {h h' : LoggedHeap}
  {strs : List (Nat × Str)} {i j : Nat} {t t' u : Str} {p : Nat × Nat}

/-- The block each string has. -/
def bufs (strs : List (Nat × Str)) : List (Nat × (Nat × Nat)) := strs.map (Prod.map id buf)

theorem mem_held_bufs : p ∈ held (bufs strs) ↔ ∃ e ∈ strs, e.2.buf = p := by
  rw [Shares.mem_held]
  constructor
  · rintro ⟨i, hi⟩
    obtain ⟨e, he, heq⟩ := List.mem_map.mp hi
    exact ⟨e, he, congrArg Prod.snd heq⟩
  · rintro ⟨e, he, rfl⟩
    exact ⟨e.1, List.mem_map.mpr ⟨e, he, rfl⟩⟩

theorem buf_mem (he : (i, t) ∈ strs) : t.buf ∈ held (bufs strs) := mem_held_bufs.mpr ⟨_, he, rfl⟩

theorem held_concat (ho : Owns r h (t.buf :: held (bufs strs))) (i : Nat) :
    (held (bufs (strs ++ [(i, t)]))).Perm (t.buf :: held (bufs strs)) := by
  have hb : bufs (strs ++ [(i, t)]) = bufs strs ++ [(i, t.buf)] := List.map_append
  rw [hb]
  refine Shares.held_concat_new (fun hm => ?_) i
  exact (List.nodup_cons.mp ho.live.apart).1 (List.mem_map_of_mem hm)

/-- What goes with a string that has its buffer for itself. -/
theorem held_alone (hk : (AssocVec.keys strs).Nodup) (hi : AssocVec.find strs i = some t)
    (ha : ∀ e ∈ strs, e.1 ≠ i → e.2.cStr ≠ t.cStr) :
    (held (bufs strs)).Perm (t.buf :: held (bufs (AssocVec.erase strs i))) := by
  have hfind : AssocVec.find (bufs strs) i = some t.buf := AssocVec.find_map buf hi
  have herase : AssocVec.erase (bufs strs) i = bufs (AssocVec.erase strs i) :=
    AssocVec.erase_map buf
  rw [← herase]
  refine Shares.held_erase_last hfind ((Shares.holders_eq_one_iff hfind).mpr fun hm => ?_)
  rw [herase] at hm
  obtain ⟨e, he, heq⟩ := mem_held_bufs.mp hm
  obtain ⟨hmem, hne⟩ := AssocVec.mem_erase hk he
  exact ha e hmem hne (congrArg Prod.fst heq)

theorem texts_concat : texts (es ++ [e]) = textsStep (texts es) e := by
  rw [texts, List.foldl_append]
  rfl

/-- The strings have buffers of the heap, with their texts in them. -/
structure Owning (r : HeapRegion) (es : List Event) (s : State) : Prop where
  keys : (AssocVec.keys s.strs).Nodup
  owns : Owns r s.heap (held (bufs s.strs))
  reads : ∀ e ∈ s.strs, Reads s.heap.mem e.2 (texts es e.1)

theorem owning_init (m : Mem) : Owning r [] ⟨.init r m, []⟩ :=
  ⟨List.nodup_nil, owns_init m, fun _ he => absurd he List.not_mem_nil⟩

theorem Owning.sound (ho : Owning r es s) : Sound r es s where
  freed p := by
    obtain ⟨lost, hl⟩ := ho.owns.ledger
    rw [hl.count_eq p, List.count_append, List.count_append]
    split
    next hp =>
      obtain ⟨e, he, rfl⟩ := List.mem_map.mp hp
      have hb : e.2.cStr ∈ (held (bufs s.strs)).map Prod.fst :=
        List.mem_map_of_mem (f := Prod.fst) (buf_mem he)
      have := List.count_pos_iff.mpr hb
      omega
    · omega
  inUse e he := ho.owns.live.inUse (buf_mem he)
  reads e he := (ho.reads e he).textAt (by
    have := ho.owns.capacity_le (buf_mem he)
    omega)

/-- A buffer that a live string has was handed out once more often than freed. -/
theorem Sound.freed_lt (h : Sound r es s) {d : Nat × Str} (hd : d ∈ s.strs) :
    s.heap.freed.count d.2.cStr < s.heap.allocated.count d.2.cStr := by
  have hfreed := h.freed d.2.cStr
  rwa [if_pos (List.mem_map_of_mem hd)] at hfreed

/-- A string with a new buffer, beside those there were. -/
theorem Owning.extend {x : List UInt8} (hk : (AssocVec.keys strs).Nodup)
    (hi : i ∉ AssocVec.keys strs) (hreads : ∀ d ∈ strs, Reads h.mem d.2 (texts es d.1))
    (hnew : texts (es ++ [e]) = Function.update (texts es) i x)
    (ho : Owns r h' (t.buf :: held (bufs strs))) (hkeep : Untouched (held (bufs strs)) h.mem h'.mem)
    (ht : Reads h'.mem t x) : Owning r (es ++ [e]) ⟨h', strs ++ [(i, t)]⟩ := by
  refine ⟨AssocVec.nodup_concat hk hi, ho.perm (held_concat ho i).symm, fun d hd => ?_⟩
  rcases List.mem_append.mp hd with hd | hd
  · have hne : d.1 ≠ i := fun heq => hi (heq ▸ List.mem_map_of_mem hd)
    rw [hnew, Function.update_of_ne hne]
    exact (hreads d hd).untouched (buf_mem hd) hkeep
  · obtain rfl := List.mem_singleton.mp hd
    rw [hnew, Function.update_self]
    exact ht

theorem not_mem_keys_erase (ho : Owning r es s) (i : Nat) :
    i ∉ AssocVec.keys (AssocVec.erase s.strs i) := by
  rw [AssocVec.keys_erase]
  exact ho.keys.not_mem_erase

/-- One string gets what another has. -/
theorem Owning.share (ho : Owning r es s) (hj : AssocVec.find s.strs j = some t)
    (hown : Owns r h' (held (bufs s.strs)))
    (hkeep : Untouched (held (bufs s.strs)) s.heap.mem h'.mem)
    (hnew : texts (es ++ [e]) = Function.update (texts es) i (texts es j)) :
    Owning r (es ++ [e]) ⟨h', put s.strs i t⟩ := by
  have hj := AssocVec.mem_of_find hj
  have hput : ∀ d ∈ put s.strs i t, (d ∈ s.strs ∧ d.1 ≠ i) ∨ d = (i, t) := fun d hd =>
    (List.mem_append.mp hd).imp (AssocVec.mem_erase ho.keys) List.mem_singleton.mp
  refine ⟨AssocVec.nodup_concat (AssocVec.nodup_erase ho.keys) (not_mem_keys_erase ho i),
    hown.lose (Shares.nodup_held _) fun p hp => ?_, fun d hd => ?_⟩
  · obtain ⟨d, hd, rfl⟩ := mem_held_bufs.mp hp
    rcases hput d hd with ⟨hmem, -⟩ | rfl
    · exact buf_mem hmem
    · exact buf_mem hj
  · rcases hput d hd with ⟨hmem, hne⟩ | rfl
    · rw [hnew, Function.update_of_ne hne]
      exact (ho.reads d hmem).untouched (buf_mem hmem) hkeep
    · rw [hnew, Function.update_self]
      exact (ho.reads _ hj).untouched (buf_mem hj) hkeep

/-- `i += Str(x)`. -/
theorem Owning.appendText {x : CStr} (ho : Owning r es s) (hx : Served r s x)
    (ha : x.chars = [] ∨ Alone s i) (hi : AssocVec.find s.strs i = some t)
    (hc : ofCStr r x s.heap = .ok (u, h)) (happ : appendStr r t u h = .ok (t', h')) :
    Owning r (es ++ [.appendedText i x]) ⟨h', put s.strs i t'⟩ := by
  have hmem := AssocVec.mem_of_find hi
  have htexts : texts (es ++ [.appendedText i x]) =
      Function.update (texts es) i (texts es i ++ x.chars) := texts_concat
  obtain ⟨ho₁, hkeep₁, hu⟩ := ofCStr_owns ho.owns hx.1 hx.2 hc
  have ht : Reads h.mem t (texts es i) := (ho.reads _ hmem).untouched (buf_mem hmem) hkeep₁
  obtain ⟨⟨t₁, h₁⟩, hadd, hret⟩ := bind_eq_ok.mp happ
  cases hret
  rcases ha with hnil | halone
  · rw [hnil] at hu
    obtain ⟨rfl, rfl⟩ := append_nil ho₁ ht (buf_mem hmem) hu hadd
    obtain ⟨ho₂, hkeep₂⟩ := destroy_owns ho₁
    refine ho.share hi ho₂ (hkeep₁.trans hkeep₂) ?_
    rw [htexts, hnil, List.append_nil]
  · have hheld := held_alone ho.keys hi fun d hd => halone d hd t hi
    have hsub : held (bufs (AssocVec.erase s.strs i)) ⊆ held (bufs s.strs) := fun p hp =>
      hheld.mem_iff.mpr (.tail _ hp)
    have ho₁ := ho₁.perm ((hheld.cons u.buf).trans (List.Perm.swap ..))
    obtain ⟨ho₂, hkeep₂, ht₂⟩ := append_owns ho₁ ht List.mem_cons_self hu hadd
    obtain ⟨ho₃, hkeep₃⟩ := destroy_owns (ho₂.perm (List.Perm.swap ..))
    refine .extend (AssocVec.nodup_erase ho.keys) (not_mem_keys_erase ho i)
      (fun d hd => ho.reads d (AssocVec.mem_erase ho.keys hd).1) htexts ho₃
      (((hkeep₁.mono hsub).trans (hkeep₂.mono (List.subset_cons_self _ _))).trans
        (hkeep₃.mono (List.subset_cons_self _ _))) ?_
    exact ht₂.untouched List.mem_cons_self hkeep₃

theorem Owning.step (ho : Owning r es s) (hp : Proper r s e) (hs : Step r s e s') :
    Owning r (es ++ [e]) s' := by
  cases hs with
  | empty hnew hc =>
      obtain ⟨ho', hkeep, ht⟩ := empty_owns ho.owns hc
      exact .extend ho.keys hnew ho.reads texts_concat ho' hkeep ht
  | constructed hnew hc =>
      cases hp with
      | constructed _ hx =>
          obtain ⟨ho', hkeep, ht⟩ := ofCStr_owns ho.owns hx.1 hx.2 hc
          exact .extend ho.keys hnew ho.reads texts_concat ho' hkeep ht
  | assignedText hi hc => cases hp
  | assigned hi hj => exact ho.share hj ho.owns (.refl _ _) texts_concat
  | appendedText hi hc happ =>
      cases hp with
      | appendedText hx ha => exact ho.appendText hx ha hi hc happ
  | appended hi hj happ => cases hp
  | @destroyed i t hi =>
      cases hp with
      | destroyed ha =>
          have hheld := held_alone ho.keys hi fun d hd => ha d hd t hi
          obtain ⟨ho', hkeep⟩ := destroy_owns (ho.owns.perm hheld)
          refine ⟨AssocVec.nodup_erase ho.keys, ho', fun d hd => ?_⟩
          have htexts : texts (es ++ [.destroyed i]) = texts es := texts_concat
          rw [htexts]
          exact (ho.reads d (AssocVec.mem_erase ho.keys hd).1).untouched (buf_mem hd) hkeep

end Runs

/-! ### Two strings -/

section Two

open KernelAllocator (smallImage)

theorem zero_notMem_a : 0 ∉ ascii ['a'] := by decide
theorem zero_notMem_hello : 0 ∉ ascii ['h', 'e', 'l', 'l', 'o'] := by decide

def a : CStr := .lit ['a'] zero_notMem_a
def hello : CStr := .lit ['h', 'e', 'l', 'l', 'o'] zero_notMem_hello

def emptyHeap : LoggedHeap := .init smallImage fun _ => 0

/-- The buffers of the two texts, and of one behind the other. -/
def first : Str := ⟨0x200012, 1, 5⟩
def second : Str := ⟨0x200020, 5, 10⟩
def both : Str := ⟨0x200033, 6, 10⟩

def firstHeap : LoggedHeap := leaves emptyHeap (ofCStr smallImage a emptyHeap)
def secondHeap : LoggedHeap := leaves emptyHeap (ofCStr smallImage hello firstHeap)
def bothHeap : LoggedHeap := leaves emptyHeap (appendStr smallImage first second secondHeap)

theorem ofCStr_first : ofCStr smallImage a emptyHeap = .ok (first, firstHeap) :=
  eq_ok_leaves _ (by decide +kernel)

theorem ofCStr_second : ofCStr smallImage hello firstHeap = .ok (second, secondHeap) :=
  eq_ok_leaves _ (by decide +kernel)

theorem appendStr_both : appendStr smallImage first second secondHeap = .ok (both, bothHeap) :=
  eq_ok_leaves _ (by decide +kernel)

end Two

end Str

end RivOS.Lib
