import Mathlib.Data.Fintype.Card
import RivOS.Gen.Err
import RivOS.Mem.LiveBlocks
import RivOS.Support.Except
import RivOS.Support.Runs
import RivOS.Support.Shares

/-!
# Obj — Handles

`Handle` of `obj/handle/handle.hpp`, on the kernel heap.  A handle is a pointer to a block with a
count, and the block has a pointer to the user data.

`release` takes one off the count and leaves the pointer where it is, so the destructor takes one
off again; `operator=` takes nothing off the count of the block it turns away from.

* `refs`: read off the history, which handles refer to which block and have not been released.
* `Accounted`: what was allocated is what was freed and what is still referred to.
* `handles_accounted`: so it is in every run whose steps are `Proper`.
-/

namespace RivOS

open KernelAllocator (Live Idle Room Untouched)

/-- The word of memory that is the handle. -/
abbrev HandleRef := Fin (2 ^ 30)

namespace Handle

/-! ### The shared data -/

/-- `sizeof(SharedData)`: the structure is packed. -/
def sizeofSharedData : Nat := 12

def rcount (m : Mem) (shrdData : Nat) : Nat := readLE m 4 shrdData
def usrData (m : Mem) (shrdData : Nat) : Nat := readLE m 4 (shrdData + 8)

def setRcount (m : Mem) (shrdData v : Nat) : Mem := writeLE m 4 shrdData v
def setAllocatorInfoSize (m : Mem) (shrdData v : Nat) : Mem := writeLE m 4 (shrdData + 4) v
def setUsrData (m : Mem) (shrdData v : Nat) : Mem := writeLE m 4 (shrdData + 8) v

/-- A block of shared data, its user data, and for how many bytes of these the heap was asked. -/
structure Shared where
  shrdData : Nat
  usrData : Nat
  bytes : Nat
deriving DecidableEq

/-- In the order in which they are freed. -/
def Shared.ptrs (b : Shared) : List Nat := [b.usrData, b.shrdData]

/-! ### The operations -/

section Operations

variable (r : HeapRegion)

/-- What the two constructors share.  The block of the shared data is stored to without a test; where
there is no room for the user data the pointer to them is null. -/
def construct (allocatorInfoSize bytes : Nat) (m : Mem) : Except Halt (Shared × Mem) := do
  let (shrdData, m) ← orHalt .undefined
    (KernelAllocator.alloc r sizeofSharedData r.heapEnd m)
  match shrdData with
  | none => .error .undefined
  | some shrdData =>
      let m := setAllocatorInfoSize (setRcount m shrdData 1) shrdData allocatorInfoSize
      let (usrData, m) ← orHalt .undefined (KernelAllocator.alloc r bytes r.heapEnd m)
      let usrData := usrData.getD 0
      return (⟨shrdData, usrData, bytes⟩, setUsrData m shrdData usrData)

/-- `Handle()`, and `Handle(u32 allocsize)`, whose `T` is the empty `Allocator` of one byte. -/
inductive Constructor where
  | object (sizeofT : UInt32)
  | allocator (allocsize : UInt32)

namespace Constructor

def allocatorInfoSize : Constructor → Nat
  | .object _ => 0
  | .allocator allocsize => allocsize.toNat

def bytes : Constructor → Nat
  | .object sizeofT => sizeofT.toNat
  | .allocator allocsize => allocsize.toNat

def run (c : Constructor) (m : Mem) : Except Halt (Shared × Mem) :=
  construct r c.allocatorInfoSize c.bytes m

end Constructor

/-- `shrdData->rcount++`. -/
def retain (m : Mem) (shrdData : Nat) : Mem := setRcount m shrdData (rcount m shrdData + 1)

/-- What is freed, and the heap then. -/
def assrtRcount (m : Mem) (shrdData : Nat) : List Nat × Mem :=
  if rcount m shrdData = 0 then
    let usr := usrData m shrdData
    ([usr, shrdData],
      setUsrData (KernelAllocator.free shrdData (KernelAllocator.free usr m)) shrdData 0)
  else ([], m)

def release (m : Mem) (shrdData : Nat) : List Nat × Mem :=
  assrtRcount (setRcount m shrdData (rcount m shrdData + 2 ^ 32 - 1)) shrdData

end Operations

/-! ### Runs -/

/-- The heap, and the handles there are with the pointer each has. -/
structure State where
  heap : Mem
  handles : List (HandleRef × Nat)

inductive Event where
  | constructed (h : HandleRef) (b : Shared)
  /-- `h` from `h'`. -/
  | copied (h h' : HandleRef)
  /-- `h = h'`. -/
  | assigned (h h' : HandleRef)
  | released (h : HandleRef) (freed : List Nat)
  | destroyed (h : HandleRef) (freed : List Nat)

variable {r : HeapRegion}

/-- A handle is constructed where there is none, and destroyed once. -/
inductive Step (r : HeapRegion) (s : State) : Event → State → Prop where
  | constructed {h : HandleRef} {b : Shared} {m : Mem} (c : Constructor)
      (hnew : h ∉ AssocVec.keys s.handles) (hc : c.run r s.heap = .ok (b, m)) :
      Step r s (.constructed h b) ⟨m, s.handles ++ [(h, b.shrdData)]⟩
  | copied {h h' : HandleRef} {p : Nat} (hnew : h ∉ AssocVec.keys s.handles)
      (hp : AssocVec.find s.handles h' = some p) :
      Step r s (.copied h h') ⟨retain s.heap p, s.handles ++ [(h, p)]⟩
  | itself {h : HandleRef} (hh : h ∈ AssocVec.keys s.handles) : Step r s (.assigned h h) s
  | assigned {h h' : HandleRef} {p : Nat} (hne : h ≠ h') (hh : h ∈ AssocVec.keys s.handles)
      (hp : AssocVec.find s.handles h' = some p) :
      Step r s (.assigned h h') ⟨retain s.heap p, AssocVec.erase s.handles h ++ [(h, p)]⟩
  | released {h : HandleRef} {p : Nat} (hp : AssocVec.find s.handles h = some p) :
      Step r s (.released h (release s.heap p).1) { s with heap := (release s.heap p).2 }
  | destroyed {h : HandleRef} {p : Nat} (hp : AssocVec.find s.handles h = some p) :
      Step r s (.destroyed h (release s.heap p).1)
        ⟨(release s.heap p).2, AssocVec.erase s.handles h⟩

/-! ### What was allocated, freed and referred to -/

/-- `h` refers to what `h'` refers to. -/
def share (l : List (HandleRef × Shared)) (h h' : HandleRef) : List (HandleRef × Shared) :=
  match AssocVec.find l h' with
  | some b => AssocVec.erase l h ++ [(h, b)]
  | none => AssocVec.erase l h

def refsStep (l : List (HandleRef × Shared)) : Event → List (HandleRef × Shared)
  | .constructed h b => l ++ [(h, b)]
  | .copied h h' => share l h h'
  | .assigned h h' => if h = h' then l else share l h h'
  | .released h _ => AssocVec.erase l h
  | .destroyed h _ => AssocVec.erase l h

/-- The handles that have not been released, with the block each refers to. -/
def refs (es : List Event) : List (HandleRef × Shared) := es.foldl refsStep []

def allocated (es : List Event) : List Nat :=
  es.flatMap fun
    | .constructed _ b => b.ptrs
    | _ => []

/-- What `KernelAllocator::free` was called with. -/
def freed (es : List Event) : List Nat :=
  es.flatMap fun
    | .released _ f => f
    | .destroyed _ f => f
    | _ => []

/-- Every block that was allocated has been freed once, or a handle refers to it. -/
def Accounted (es : List Event) : Prop :=
  (allocated es).Perm (freed es ++ (Shares.held (refs es)).flatMap Shared.ptrs)

/-- No released handle is copied or assigned from, and none is assigned to that has not been
released, but to itself.  A released handle is released or destroyed only while its block is free
and the count in it is not one.  The heap can serve or refuse what is asked of it. -/
inductive Proper (r : HeapRegion) (es : List Event) (s : State) : Event → Prop where
  | constructed (h : HandleRef) {b : Shared}
      (hroom : ∀ p m, KernelAllocator.alloc r sizeofSharedData r.heapEnd s.heap = some (some p, m) →
        Room r b.bytes m) : Proper r es s (.constructed h b)
  | copied {h h' : HandleRef} (hlive : h' ∈ AssocVec.keys (refs es)) : Proper r es s (.copied h h')
  | itself (h : HandleRef) : Proper r es s (.assigned h h)
  | assigned {h h' : HandleRef} (hgone : h ∉ AssocVec.keys (refs es))
      (hlive : h' ∈ AssocVec.keys (refs es)) : Proper r es s (.assigned h h')
  | released {h : HandleRef} (f : List Nat) (hlive : h ∈ AssocVec.keys (refs es)) :
      Proper r es s (.released h f)
  | again {h : HandleRef} (f : List Nat) {p : Nat} (hp : AssocVec.find s.handles h = some p)
      (hidle : Idle r s.heap p 4) (hcount : rcount s.heap p ≠ 1) : Proper r es s (.released h f)
  | destroyed {h : HandleRef} (f : List Nat) (hlive : h ∈ AssocVec.keys (refs es)) :
      Proper r es s (.destroyed h f)
  | late {h : HandleRef} (f : List Nat) {p : Nat} (hp : AssocVec.find s.handles h = some p)
      (hidle : Idle r s.heap p 4) (hcount : rcount s.heap p ≠ 1) : Proper r es s (.destroyed h f)

/-! ### One block -/

section Kept

open Shares (held holders)

variable {m m' : Mem} {l l' : List (HandleRef × Shared)} {b c : Shared} {v : Nat}

/-- The payloads of a block; the user data may be none. -/
def Shared.blocks (b : Shared) : List (Nat × Nat) :=
  (b.shrdData, sizeofSharedData) :: if b.usrData = 0 then [] else [(b.usrData, b.bytes)]

/-- The blocks that handles refer to are in use, and the counts in them are right. -/
structure Kept (r : HeapRegion) (m : Mem) (l : List (HandleRef × Shared)) : Prop where
  live : Live r m ((held l).flatMap Shared.blocks)
  rcount : ∀ b ∈ held l, Handle.rcount m b.shrdData = holders l b
  usrData : ∀ b ∈ held l, Handle.usrData m b.shrdData = b.usrData

theorem mem_blocks (hb : b ∈ held l) :
    (b.shrdData, sizeofSharedData) ∈ (held l).flatMap Shared.blocks :=
  List.mem_flatMap.mpr ⟨b, hb, List.mem_cons_self⟩

theorem shrdData_sublist (bs : List Shared) :
    (bs.map Shared.shrdData).Sublist ((bs.flatMap Shared.blocks).map Prod.fst) := by
  induction bs with
  | nil => exact .slnil
  | cons b bs ih =>
      rw [List.flatMap_cons, List.map_append, List.map_cons, Shared.blocks, List.map_cons,
        List.cons_append]
      exact (ih.trans (List.sublist_append_right ..)).cons_cons _

theorem Kept.apart (h : Kept r m l) (hb : b ∈ held l) (hc : c ∈ held l) (hne : b ≠ c) :
    b.shrdData ≠ c.shrdData := fun heq =>
  hne (List.inj_on_of_nodup_map (h.live.apart.sublist (shrdData_sublist _)) hb hc heq)

/-- What is not stored to is what it was. -/
theorem Kept.of_frame (h : Kept r m l) (hlive : Live r m' ((held l').flatMap Shared.blocks))
    (hsame : ∀ c ∈ held l', c ∈ held l ∧ holders l' c = holders l c)
    (hframe : ∀ c ∈ held l', ∀ x, c.shrdData ≤ x → x < c.shrdData + 12 → m' x = m x) :
    Kept r m' l' where
  live := hlive
  rcount c hc := by
    rw [(hsame c hc).2, ← h.rcount c (hsame c hc).1]
    exact readLE_congr fun x hlo hhi => hframe c hc x hlo (by omega)
  usrData c hc := by
    rw [← h.usrData c (hsame c hc).1]
    exact readLE_congr fun x hlo hhi => hframe c hc x (by omega) (by omega)

/-- Another count in one of the blocks. -/
theorem Kept.recount (h : Kept r m l) (hb : b ∈ held l) (hheld : (held l').Perm (held l))
    (hothers : ∀ c ≠ b, holders l' c = holders l c) (hv : v % 2 ^ 32 = holders l' b) :
    Kept r (setRcount m b.shrdData v) l' := by
  have hout : ∀ x, x < b.shrdData ∨ b.shrdData + 4 ≤ x → setRcount m b.shrdData v x = m x :=
    fun x hx => writeLE_of_not_mem hx
  obtain ⟨hlive, hkeep⟩ := h.live.write (mem_blocks hb) fun x hx => hout x (by
    simp only [sizeofSharedData] at hx
    omega)
  refine ⟨hlive.perm (hheld.flatMap_right _).symm, fun c hc => ?_, fun c hc => ?_⟩
  · have hc := hheld.mem_iff.mp hc
    by_cases hcb : c = b
    · subst hcb
      rw [Handle.rcount, setRcount, readLE_writeLE, ← hv]
      rfl
    · rw [hothers c hcb, ← h.rcount c hc]
      have hne := h.apart hc hb hcb
      exact readLE_congr fun x hlo hhi => hkeep _ (mem_blocks hc) hne x hlo (by
        simp only [sizeofSharedData]
        omega)
  · have hc := hheld.mem_iff.mp hc
    rw [← h.usrData c hc]
    by_cases hcb : c = b
    · subst hcb
      exact readLE_congr fun x hlo hhi => hout x (.inr (by omega))
    · have hne := h.apart hc hb hcb
      exact readLE_congr fun x hlo hhi => hkeep _ (mem_blocks hc) hne x (by omega) (by
        simp only [sizeofSharedData]
        omega)

/-- The user data are freed, if there are any. -/
theorem free_usrData {rest : List (Nat × Nat)} (h : Live r m (b.blocks ++ rest)) :
    Live r (KernelAllocator.free b.usrData m) ((b.shrdData, sizeofSharedData) :: rest) ∧
      Untouched rest m (KernelAllocator.free b.usrData m) := by
  rw [Shared.blocks] at h
  split at h
  next hnull =>
    rw [hnull]
    exact h.free_null.imp_right fun hu => hu.mono (List.subset_cons_self _ _)
  · have hfree := (h.perm (List.Perm.swap ..)).free
    exact ⟨hfree.1, hfree.2.mono fun e he => .tail _ (.tail _ he)⟩

/-- A new block, with the count of one. -/
theorem construct_kept {info n : Nat} (h : Kept r m l) (hn : n < 2 ^ 32)
    (hroom : ∀ p m₁, KernelAllocator.alloc r sizeofSharedData r.heapEnd m = some (some p, m₁) →
      Room r n m₁) (hc : construct r info n m = .ok (b, m')) (i : HandleRef) :
    b ∉ held l ∧ Kept r m' (l ++ [(i, b)]) := by
  obtain ⟨⟨p, m₁⟩, halloc, hc⟩ := bind_eq_ok.mp hc
  have halloc := orHalt_eq_ok.mp halloc
  rcases h.live.alloc (h.live.room_of_le (by decide)) (by decide) halloc with
    ⟨rfl, -⟩ | ⟨p, rfl, hlive₁, hkeep₁⟩
  · cases hc
  obtain ⟨⟨q, m₃⟩, halloc', hc⟩ := bind_eq_ok.mp hc
  cases hc
  have halloc' := orHalt_eq_ok.mp halloc'
  have hnew : p ∉ ((held l).flatMap Shared.blocks).map Prod.fst :=
    (List.nodup_cons.mp hlive₁.apart).1
  have hout : ∀ x, x < p ∨ p + sizeofSharedData ≤ x →
      setAllocatorInfoSize (setRcount m₁ p 1) p info x = m₁ x := by
    intro x hx
    simp only [sizeofSharedData] at hx
    rw [setAllocatorInfoSize, writeLE_of_not_mem (by omega), setRcount,
      writeLE_of_not_mem (by omega)]
  have hone : Handle.rcount (setAllocatorInfoSize (setRcount m₁ p 1) p info) p = 1 := by
    rw [Handle.rcount, setAllocatorInfoSize, readLE_writeLE_disjoint (.inl (Nat.le_refl _)),
      setRcount, readLE_writeLE]
    rfl
  obtain ⟨hlive₂, hkeep₂⟩ := hlive₁.write List.mem_cons_self hout
  have hroom₂ := hlive₁.room_write List.mem_cons_self hout (hroom p m₁ halloc)
  have husr : Live r m₃ (Shared.blocks ⟨p, q.getD 0, n⟩ ++ (held l).flatMap Shared.blocks) ∧
      Untouched ((p, sizeofSharedData) :: (held l).flatMap Shared.blocks)
        (setAllocatorInfoSize (setRcount m₁ p 1) p info) m₃ ∧ q.getD 0 < 2 ^ 32 := by
    rcases hlive₂.alloc hroom₂ hn halloc' with ⟨rfl, rfl⟩ | ⟨q, rfl, hlive₃, hkeep₃⟩
    · exact ⟨hlive₂, .refl _ _, by decide⟩
    · have hq := hlive₃.ne_zero List.mem_cons_self
      have hbound := (hlive₃.bounds List.mem_cons_self).2
      have hmem := r.memory
      refine ⟨?_, hkeep₃, by simp only [Option.getD_some]; omega⟩
      rw [Shared.blocks, Option.getD_some, if_neg hq]
      exact hlive₃.perm (List.Perm.swap ..)
  obtain ⟨hlive₃, hkeep₃, hlt⟩ := husr
  have hout' : ∀ x, x < p + 8 ∨ p + 12 ≤ x → setUsrData m₃ p (q.getD 0) x = m₃ x :=
    fun x hx => writeLE_of_not_mem (by omega)
  obtain ⟨hlive₄, hkeep₄⟩ := hlive₃.write List.mem_cons_self fun x hx => hout' x (by
    simp only [sizeofSharedData] at hx
    omega)
  have hfresh : (⟨p, q.getD 0, n⟩ : Shared) ∉ held l := fun hm =>
    hnew (List.mem_map.mpr ⟨_, mem_blocks hm, rfl⟩)
  have hheld := Shares.held_concat_new hfresh i
  have hframe : ∀ c ∈ held l, ∀ x, c.shrdData ≤ x → x < c.shrdData + 12 →
      setUsrData m₃ p (q.getD 0) x = m x := by
    intro c hc x hlo hhi
    have hmem := mem_blocks hc
    have hne : c.shrdData ≠ p := fun heq => hnew (List.mem_map.mpr ⟨_, hmem, heq⟩)
    rw [hkeep₄ _ (List.mem_append_right _ hmem) hne x hlo hhi, hkeep₃ _ (.tail _ hmem) x hlo hhi,
      hkeep₂ _ (.tail _ hmem) hne x hlo hhi, hkeep₁ _ hmem x hlo hhi]
  have hcount : Handle.rcount (setUsrData m₃ p (q.getD 0)) p = 1 := by
    refine (readLE_congr fun x hlo hhi => ?_).trans hone
    rw [hout' x (.inl (by omega))]
    exact hkeep₃ _ List.mem_cons_self x hlo (by
      simp only [sizeofSharedData]
      omega)
  refine ⟨hfresh, hlive₄.perm (hheld.flatMap_right _).symm, fun c hc => ?_, fun c hc => ?_⟩
  · rw [Shares.holders_concat]
    rcases List.mem_cons.mp (hheld.mem_iff.mp hc) with rfl | hc
    · have hnone : holders l ⟨p, q.getD 0, n⟩ = 0 :=
        Nat.eq_zero_of_not_pos fun hpos => hfresh (Shares.holders_pos_iff.mp hpos)
      rw [if_pos rfl, hnone, Nat.zero_add]
      exact hcount
    · have hne : (⟨p, q.getD 0, n⟩ : Shared) ≠ c := fun heq => hfresh (heq ▸ hc)
      rw [if_neg hne, Nat.add_zero, ← h.rcount c hc]
      exact readLE_congr fun x hlo hhi => hframe c hc x hlo (by omega)
  · rcases List.mem_cons.mp (hheld.mem_iff.mp hc) with rfl | hc
    · rw [Handle.usrData, setUsrData, readLE_writeLE]
      exact Nat.mod_eq_of_lt hlt
    · rw [← h.usrData c hc]
      exact readLE_congr fun x hlo hhi => hframe c hc x (by omega) (by omega)

/-- The last reference to a block goes, and the block with it. -/
theorem Kept.drop (h : Kept r m l) (hheld : (held l).Perm (b :: held l'))
    (hothers : ∀ c ≠ b, holders l' c = holders l c) (hv : v % 2 ^ 32 = 0) :
    ∃ m', assrtRcount (setRcount m b.shrdData v) b.shrdData = (b.ptrs, m') ∧ Kept r m' l' := by
  have hb : b ∈ held l := hheld.mem_iff.mpr List.mem_cons_self
  have hgone : b ∉ held l' := (List.nodup_cons.mp (hheld.nodup_iff.mp (Shares.nodup_held l))).1
  have hin : ∀ c ∈ held l', c ∈ held l ∧ c ≠ b := fun c hc =>
    ⟨hheld.mem_iff.mpr (.tail _ hc), fun heq => hgone (heq ▸ hc)⟩
  have hout : ∀ x, x < b.shrdData ∨ b.shrdData + 4 ≤ x → setRcount m b.shrdData v x = m x :=
    fun x hx => writeLE_of_not_mem hx
  have hzero : Handle.rcount (setRcount m b.shrdData v) b.shrdData = 0 := by
    rw [Handle.rcount, setRcount, readLE_writeLE]
    exact hv
  have husr : Handle.usrData (setRcount m b.shrdData v) b.shrdData = b.usrData := by
    rw [← h.usrData b hb]
    exact readLE_congr fun x hlo hhi => hout x (.inr (by omega))
  rw [assrtRcount, if_pos hzero, husr]
  -- the count, the user data, the shared data, and a store to what has been freed
  obtain ⟨hlive₁, hkeep₁⟩ := h.live.write (mem_blocks hb) fun x hx => hout x (by
    simp only [sizeofSharedData] at hx
    omega)
  obtain ⟨hlive₂, hkeep₂⟩ := free_usrData (hlive₁.perm (hheld.flatMap_right _))
  obtain ⟨hlive₃, hkeep₃⟩ := hlive₂.free
  have hout' : ∀ x, x < b.shrdData ∨ b.shrdData + sizeofSharedData ≤ x →
      setUsrData (KernelAllocator.free b.shrdData (KernelAllocator.free b.usrData
        (setRcount m b.shrdData v))) b.shrdData 0 x =
      KernelAllocator.free b.shrdData (KernelAllocator.free b.usrData
        (setRcount m b.shrdData v)) x := by
    intro x hx
    simp only [sizeofSharedData] at hx
    exact writeLE_of_not_mem (by omega)
  obtain ⟨hlive₄, hkeep₄⟩ := hlive₃.write_idle hlive₂.idle_free hout'
  refine ⟨_, rfl, h.of_frame hlive₄ (fun c hc => ⟨(hin c hc).1, hothers c (hin c hc).2⟩)
    fun c hc x hlo hhi => ?_⟩
  have hmem := mem_blocks hc
  rw [hkeep₄ _ hmem x hlo hhi, hkeep₃ _ (.tail _ hmem) x hlo hhi, hkeep₂ _ hmem x hlo hhi]
  exact hkeep₁ _ (mem_blocks (hin c hc).1) (h.apart (hin c hc).1 hb (hin c hc).2) x hlo hhi

/-- One off a count in a free block does nothing to the others, if it leaves the count. -/
theorem Kept.late {p : Nat} (h : Kept r m l) (hidle : Idle r m p 4)
    (hcount : Handle.rcount m p ≠ 1) :
    ∃ m', release m p = ([], m') ∧ Kept r m' l := by
  have hlt : Handle.rcount m p < 2 ^ 32 := readLE_lt
  have hleft : Handle.rcount (setRcount m p (Handle.rcount m p + 2 ^ 32 - 1)) p ≠ 0 := by
    conv_lhs => rw [Handle.rcount, setRcount, readLE_writeLE]
    omega
  have hout : ∀ x, x < p ∨ p + 4 ≤ x →
      setRcount m p (Handle.rcount m p + 2 ^ 32 - 1) x = m x := fun x hx => writeLE_of_not_mem hx
  obtain ⟨hlive, hkeep⟩ := h.live.write_idle hidle hout
  refine ⟨_, by rw [release, assrtRcount, if_neg hleft], h.of_frame hlive (fun c hc => ⟨hc, rfl⟩)
    fun c hc x => hkeep _ (mem_blocks hc) x⟩

/-- A handle is released: the block goes with the last one. -/
theorem Kept.release (h : Kept r m l) {i : HandleRef} (hb : AssocVec.find l i = some b) :
    ∃ f m', release m b.shrdData = (f, m') ∧ Kept r m' (AssocVec.erase l i) ∧
      ((held l).flatMap Shared.ptrs).Perm
        (f ++ (held (AssocVec.erase l i)).flatMap Shared.ptrs) := by
  have hothers : ∀ c ≠ b, holders (AssocVec.erase l i) c = holders l c := fun c hc => by
    have := Shares.holders_erase hb c
    rwa [if_neg (Ne.symm hc)] at this
  have hself := Shares.holders_erase hb b
  rw [if_pos rfl] at hself
  have hmem : b ∈ held l := Shares.holders_pos_iff.mp (by omega)
  have hcount := h.rcount b hmem
  have hlt : Handle.rcount m b.shrdData < 2 ^ 32 := readLE_lt
  by_cases hone : holders l b = 1
  · have hheld := Shares.held_erase_last hb hone
    obtain ⟨m', hm', hk⟩ := h.drop hheld hothers (v := Handle.rcount m b.shrdData + 2 ^ 32 - 1) (by
      omega)
    exact ⟨_, m', hm', hk, hheld.flatMap_right _⟩
  · have hheld := Shares.held_erase_shared hb (by omega)
    have hk := h.recount (v := Handle.rcount m b.shrdData + 2 ^ 32 - 1) hmem hheld hothers (by omega)
    have hleft := hk.rcount b (hheld.mem_iff.mpr hmem)
    refine ⟨[], _, ?_, hk, (hheld.flatMap_right _).symm⟩
    rw [Handle.release, assrtRcount, if_neg (by omega)]

/-- One more handle refers to a block. -/
theorem Kept.retain (h : Kept r m l) (hb : b ∈ held l) (hlen : l.length + 1 < 2 ^ 32)
    (i : HandleRef) : Kept r (retain m b.shrdData) (l ++ [(i, b)]) := by
  have hle := Shares.holders_le l b
  refine h.recount hb (Shares.held_concat_old hb i) (fun c hc => ?_) ?_
  · rw [Shares.holders_concat, if_neg (Ne.symm hc), Nat.add_zero]
  · rw [Shares.holders_concat, if_pos rfl, h.rcount b hb]
    exact Nat.mod_eq_of_lt (by omega)

end Kept

/-! ### Runs -/

section Runs

open Shares (held)

variable {es : List Event} {s t : State} {e : Event} {h h' : HandleRef}

theorem refs_concat : refs (es ++ [e]) = refsStep (refs es) e := by
  rw [refs, List.foldl_append]
  rfl

theorem allocated_concat : allocated (es ++ [e]) = allocated es ++ allocated [e] :=
  List.flatMap_append

theorem freed_concat : freed (es ++ [e]) = freed es ++ freed [e] := List.flatMap_append

/-- The heap and the handles against a history. -/
structure Counted (r : HeapRegion) (es : List Event) (s : State) : Prop where
  handles : (AssocVec.keys s.handles).Nodup
  refs : (AssocVec.keys (refs es)).Nodup
  shrdData : ∀ h b, AssocVec.find (Handle.refs es) h = some b →
    AssocVec.find s.handles h = some b.shrdData
  kept : Kept r s.heap (Handle.refs es)
  accounted : Accounted es

theorem Counted.refs_subset (hc : Counted r es s) (hh : h ∈ AssocVec.keys (Handle.refs es)) :
    h ∈ AssocVec.keys s.handles := by
  obtain ⟨b, hb⟩ := AssocVec.exists_find_iff.mpr hh
  exact AssocVec.mem_keys_of_find (hc.shrdData h b hb)

/-- There are no more handles than words of memory. -/
theorem Counted.length_lt (hc : Counted r es s) : (Handle.refs es).length + 1 < 2 ^ 32 := by
  have hle := hc.refs.length_le_card
  rw [Fintype.card_fin, AssocVec.keys, List.length_map] at hle
  omega

/-- Where nothing is allocated or freed and the same blocks are referred to. -/
theorem accounted_concat (ha : Accounted es) (hall : allocated [e] = []) (hfree : freed [e] = [])
    (hheld : (held (refs (es ++ [e]))).Perm (held (refs es))) : Accounted (es ++ [e]) := by
  rw [Accounted, allocated_concat, freed_concat, hall, hfree, List.append_nil, List.append_nil]
  exact ha.trans ((hheld.flatMap_right _).symm.append_left _)

/-- `h` comes to refer to what `h'` refers to. -/
theorem Counted.share {handles : List (HandleRef × Nat)} {b : Shared} (hc : Counted r es s)
    (hb : AssocVec.find (Handle.refs es) h' = some b)
    (hgone : h ∉ AssocVec.keys (Handle.refs es))
    (hrefs : refsStep (Handle.refs es) e = share (Handle.refs es) h h')
    (hall : allocated [e] = []) (hfree : freed [e] = []) (hnodup : (AssocVec.keys handles).Nodup)
    (hself : AssocVec.find handles h = some b.shrdData)
    (hothers : ∀ k ≠ h, AssocVec.find handles k = AssocVec.find s.handles k) :
    Counted r (es ++ [e]) ⟨retain s.heap b.shrdData, handles⟩ := by
  have hnew : Handle.refs (es ++ [e]) = Handle.refs es ++ [(h, b)] := by
    rw [refs_concat, hrefs, Handle.share, hb, AssocVec.erase_of_not_mem hgone]
  have hmem : b ∈ held (Handle.refs es) := Shares.mem_held.mpr ⟨h', AssocVec.mem_of_find hb⟩
  refine ⟨hnodup, ?_, fun k c hk => ?_, ?_, ?_⟩
  · rw [hnew]
    exact AssocVec.nodup_concat hc.refs hgone
  · rw [hnew, AssocVec.find_concat hgone] at hk
    split at hk
    next hkh =>
      cases hk
      rw [hkh, hself]
    next hkh => rw [hothers k hkh, hc.shrdData k c hk]
  · rw [hnew]
    exact hc.kept.retain hmem hc.length_lt h
  · exact accounted_concat hc.accounted hall hfree (hnew ▸ Shares.held_concat_old hmem h)

/-- `h` refers to nothing any more. -/
theorem Counted.drop {handles : List (HandleRef × Nat)} {b : Shared} {f : List Nat} {m' : Mem}
    (hc : Counted r es s) (hb : AssocVec.find (Handle.refs es) h = some b)
    (hrefs : refsStep (Handle.refs es) e = AssocVec.erase (Handle.refs es) h)
    (hall : allocated [e] = []) (hfree : freed [e] = f)
    (hrel : release s.heap b.shrdData = (f, m')) (hnodup : (AssocVec.keys handles).Nodup)
    (hothers : ∀ k ≠ h, AssocVec.find handles k = AssocVec.find s.handles k) :
    Counted r (es ++ [e]) ⟨m', handles⟩ := by
  have hnew : Handle.refs (es ++ [e]) = AssocVec.erase (Handle.refs es) h := by
    rw [refs_concat, hrefs]
  obtain ⟨f', m'', hrel', hkept, hperm⟩ := hc.kept.release hb
  rw [hrel] at hrel'
  cases hrel'
  refine ⟨hnodup, hnew ▸ AssocVec.nodup_erase hc.refs, fun k c hk => ?_, hnew ▸ hkept, ?_⟩
  · rw [hnew, AssocVec.find_erase hc.refs] at hk
    split at hk
    · cases hk
    next hkh => rw [hothers k hkh, hc.shrdData k c hk]
  · rw [Accounted, allocated_concat, freed_concat, hall, hfree, hnew, List.append_nil,
      List.append_assoc]
    exact hc.accounted.trans (hperm.append_left _)

/-- A handle that has been released changes nothing more. -/
theorem Counted.late {handles : List (HandleRef × Nat)} {p : Nat} (hc : Counted r es s)
    (hgone : h ∉ AssocVec.keys (Handle.refs es))
    (hrefs : refsStep (Handle.refs es) e = AssocVec.erase (Handle.refs es) h)
    (hall : allocated [e] = []) (hfree : freed [e] = (release s.heap p).1)
    (hidle : Idle r s.heap p 4) (hcount : Handle.rcount s.heap p ≠ 1)
    (hnodup : (AssocVec.keys handles).Nodup)
    (hothers : ∀ k ≠ h, AssocVec.find handles k = AssocVec.find s.handles k) :
    Counted r (es ++ [e]) ⟨(release s.heap p).2, handles⟩ := by
  have hnew : Handle.refs (es ++ [e]) = Handle.refs es := by
    rw [refs_concat, hrefs, AssocVec.erase_of_not_mem hgone]
  obtain ⟨m', hrel, hkept⟩ := hc.kept.late hidle hcount
  rw [hrel] at hfree ⊢
  refine ⟨hnodup, hnew ▸ hc.refs, fun k c hk => ?_, hnew ▸ hkept, ?_⟩
  · rw [hnew] at hk
    have hkh : k ≠ h := fun heq => hgone (heq ▸ AssocVec.mem_keys_of_find hk)
    rw [hothers k hkh, hc.shrdData k c hk]
  · exact accounted_concat hc.accounted hall hfree (by rw [hnew])

theorem Counted.construct {b : Shared} {m : Mem} (hc : Counted r es s) (c : Constructor)
    (hnew : h ∉ AssocVec.keys s.handles) (hrun : c.run r s.heap = .ok (b, m))
    (hroom : ∀ p m, KernelAllocator.alloc r sizeofSharedData r.heapEnd s.heap = some (some p, m) →
      Room r c.bytes m) :
    Counted r (es ++ [.constructed h b]) ⟨m, s.handles ++ [(h, b.shrdData)]⟩ := by
  have hrefs : Handle.refs (es ++ [.constructed h b]) = Handle.refs es ++ [(h, b)] := refs_concat
  have hgone : h ∉ AssocVec.keys (Handle.refs es) := fun hh => hnew (hc.refs_subset hh)
  have hbytes : c.bytes < 2 ^ 32 := by
    cases c with
    | object n => exact n.toNat_lt
    | allocator n => exact n.toNat_lt
  obtain ⟨hfresh, hkept⟩ := construct_kept hc.kept hbytes hroom hrun h
  refine ⟨AssocVec.nodup_concat hc.handles hnew, ?_, fun k c hk => ?_, hrefs ▸ hkept, ?_⟩
  · rw [hrefs]
    exact AssocVec.nodup_concat hc.refs hgone
  · rw [hrefs, AssocVec.find_concat hgone] at hk
    rw [AssocVec.find_concat hnew]
    split at hk
    next hkh =>
      cases hk
      rw [if_pos hkh]
    next hkh => rw [if_neg hkh, hc.shrdData k c hk]
  · have hheld := (Shares.held_concat_new hfresh h).flatMap_right Shared.ptrs
    have hall : allocated [Event.constructed h b] = b.ptrs := List.append_nil _
    have hfree : freed [Event.constructed h b] = [] := rfl
    rw [Accounted, allocated_concat, freed_concat, hall, hfree, hrefs, List.append_nil]
    refine (hc.accounted.append_right _).trans ?_
    rw [List.append_assoc]
    refine List.Perm.append_left _ (List.perm_append_comm.trans ?_)
    exact hheld.symm

theorem construct_bytes {info n : Nat} {m m' : Mem} {b : Shared}
    (h : construct r info n m = .ok (b, m')) : b.bytes = n := by
  obtain ⟨⟨p, m₁⟩, -, h⟩ := bind_eq_ok.mp h
  cases p with
  | none => cases h
  | some p =>
      obtain ⟨⟨q, m₂⟩, -, h⟩ := bind_eq_ok.mp h
      cases h
      rfl

/-- One operation. -/
theorem Counted.step (hc : Counted r es s) (hp : Proper r es s e) (h : Step r s e t) :
    Counted r (es ++ [e]) t := by
  have herased : ∀ (k h : HandleRef), k ≠ h →
      AssocVec.find (AssocVec.erase s.handles h) k = AssocVec.find s.handles k :=
    fun k h hk => AssocVec.find_erase_of_ne hk
  cases h with
  | constructed c hnew hrun =>
      cases hp with
      | constructed _ hroom => exact hc.construct c hnew hrun (construct_bytes hrun ▸ hroom)
  | @copied h h' p hnew hfind =>
      cases hp with
      | copied hlive =>
          obtain ⟨b, hb⟩ := AssocVec.exists_find_iff.mpr hlive
          obtain rfl : p = b.shrdData := Option.some.inj (hfind.symm.trans (hc.shrdData _ _ hb))
          refine hc.share hb (fun hh => hnew (hc.refs_subset hh)) rfl rfl rfl
            (AssocVec.nodup_concat hc.handles hnew) ?_ fun k hk => ?_
          · rw [AssocVec.find_concat hnew, if_pos rfl]
          · rw [AssocVec.find_concat hnew, if_neg hk]
  | @itself h hh =>
      have hrefs : Handle.refs (es ++ [.assigned h h]) = Handle.refs es := by
        rw [refs_concat, refsStep, if_pos rfl]
      refine ⟨hc.handles, hrefs ▸ hc.refs, hrefs ▸ hc.shrdData, hrefs ▸ hc.kept, ?_⟩
      exact accounted_concat hc.accounted rfl rfl (by rw [hrefs])
  | @assigned h h' p hne hh hfind =>
      cases hp with
      | itself => exact absurd rfl hne
      | assigned hgone hlive =>
          obtain ⟨b, hb⟩ := AssocVec.exists_find_iff.mpr hlive
          obtain rfl : p = b.shrdData := Option.some.inj (hfind.symm.trans (hc.shrdData _ _ hb))
          have hout : h ∉ AssocVec.keys (AssocVec.erase s.handles h) := by
            rw [AssocVec.keys_erase]
            exact hc.handles.not_mem_erase
          refine hc.share hb hgone (if_neg hne) rfl rfl
            (AssocVec.nodup_concat (AssocVec.nodup_erase hc.handles) hout) ?_ fun k hk => ?_
          · rw [AssocVec.find_concat hout, if_pos rfl]
          · rw [AssocVec.find_concat hout, if_neg hk, herased k h hk]
  | @released h p hfind =>
      by_cases hlive : h ∈ AssocVec.keys (Handle.refs es)
      · obtain ⟨b, hb⟩ := AssocVec.exists_find_iff.mpr hlive
        obtain rfl : p = b.shrdData := Option.some.inj (hfind.symm.trans (hc.shrdData _ _ hb))
        exact hc.drop hb rfl rfl (List.append_nil _) Prod.mk.eta.symm hc.handles fun _ _ => rfl
      · cases hp with
        | released _ hh => exact absurd hh hlive
        | again _ hfind' hidle hcount =>
            cases hfind.symm.trans hfind'
            exact hc.late hlive rfl rfl (List.append_nil _) hidle hcount hc.handles fun _ _ => rfl
  | @destroyed h p hfind =>
      have hnodup := AssocVec.nodup_erase (k := h) hc.handles
      by_cases hlive : h ∈ AssocVec.keys (Handle.refs es)
      · obtain ⟨b, hb⟩ := AssocVec.exists_find_iff.mpr hlive
        obtain rfl : p = b.shrdData := Option.some.inj (hfind.symm.trans (hc.shrdData _ _ hb))
        exact hc.drop hb rfl rfl (List.append_nil _) Prod.mk.eta.symm hnodup
          fun k hk => herased k h hk
      · cases hp with
        | destroyed _ hh => exact absurd hh hlive
        | late _ hfind' hidle hcount =>
            cases hfind.symm.trans hfind'
            exact hc.late hlive rfl rfl (List.append_nil _) hidle hcount hnodup
              fun k hk => herased k h hk

theorem counted_init (m : Mem) : Counted r [] ⟨KernelAllocator.init r m, []⟩ where
  handles := List.nodup_nil
  refs := List.nodup_nil
  shrdData _ _ h := by cases h
  kept := ⟨KernelAllocator.live_init m, fun _ h => absurd h List.not_mem_nil,
    fun _ h => absurd h List.not_mem_nil⟩
  accounted := .nil

end Runs

/-! ### Two handles of one block -/

section Two

open KernelAllocator (smallImage init)

/-- A block with four bytes of user data, the first on the heap. -/
def first : Shared := ⟨0x200012, 0x200027, 4⟩

def firstHeap : Mem :=
  match (Constructor.object 4).run smallImage (init smallImage fun _ => 0) with
  | .ok (_, m) => m
  | .error _ => fun _ => 0

theorem run_first : (Constructor.object 4).run smallImage (init smallImage fun _ => 0) =
    .ok (first, firstHeap) := by
  have hb : ((Constructor.object 4).run smallImage (init smallImage fun _ => 0)).map Prod.fst =
      .ok first := by
    decide +kernel
  obtain ⟨⟨b, m⟩, hrun, rfl⟩ := map_eq_ok.mp hb
  rw [firstHeap, hrun]

theorem room_first : ∀ p m, KernelAllocator.alloc smallImage sizeofSharedData smallImage.heapEnd
    (init smallImage fun _ => 0) = some (some p, m) → Room smallImage first.bytes m := by
  intro p m halloc
  have hlive := KernelAllocator.live_init (r := smallImage) fun _ => 0
  rcases hlive.alloc (hlive.room_of_le (by decide)) (by decide) halloc with ⟨h, -⟩ | ⟨q, -, h, -⟩
  · cases h
  · exact h.room_of_le (by decide)

/-- One handle, and two. -/
def one : State := ⟨firstHeap, [(0, first.shrdData)]⟩
def two : State := ⟨retain firstHeap first.shrdData, [(0, first.shrdData), (1, first.shrdData)]⟩

theorem step_one : Step smallImage ⟨init smallImage fun _ => 0, []⟩ (.constructed 0 first) one :=
  .constructed _ List.not_mem_nil run_first

theorem step_two : Step smallImage one (.copied 1 0) two := .copied (by decide) rfl

theorem release_two : (release two.heap first.shrdData).1 = [] := by decide +kernel

theorem release_release : (release (release two.heap first.shrdData).2 first.shrdData).1 =
    first.ptrs := by
  decide +kernel

end Two

end Handle

end RivOS
