import RivOS.Mem.Page
import RivOS.Support.Ownership
import RivOS.Support.Paging

/-!
# Mem — The bitmap of the frames

`mem/page.hpp` once more, on the bytes of the bitmap: a bit for every frame, eight in a byte.

* `frames_markUsed`, `frames_markFree`, `frames_allocFrame`: bit by bit, the operations are those of
  `PhysicalFrameAllocator`.
* `books_of_run`: in every run the bits are the history, a frame being in use from when it is marked
  or handed out until it is freed.
* `frame_allocation_exclusive`: what `allocFrame` and `freeFrame` do in the states of a run.
-/

namespace RivOS

structure FrameBitmap where
  bitmap : Nat → UInt8
  totalFrames : Nat

namespace FrameBitmap

open PhysicalFrameAllocator (frameSize)

/-! ### The code -/

section Code

variable (w : FrameBitmap)

/-- `1 << (i % 8)`. -/
def bit (i : Nat) : UInt8 := 1 <<< UInt8.ofNat (i % 8)

def init (memSizeBytes : Word) (bitmapStorage : Nat → UInt8) : FrameBitmap :=
  let totalFrames := memSizeBytes.toNat / frameSize
  { bitmap := fun k => if k < (totalFrames + 7) / 8 then 0 else bitmapStorage k
    totalFrames }

def isUsed (i : Nat) : Bool := w.bitmap (i / 8) &&& bit i != 0

def markUsed (i : Nat) : FrameBitmap :=
  { w with bitmap := Function.update w.bitmap (i / 8) (w.bitmap (i / 8) ||| bit i) }

def markFree (i : Nat) : FrameBitmap :=
  { w with bitmap := Function.update w.bitmap (i / 8) (w.bitmap (i / 8) &&& ~~~bit i) }

def allocFrame : Nat × FrameBitmap :=
  match (List.range' 0 w.totalFrames).find? fun i => !w.isUsed i with
  | some i => (i * frameSize % 2 ^ 32, w.markUsed i)
  | none => (0, w)

def freeFrame (addr : Nat) : FrameBitmap := w.markFree (addr / frameSize)

end Code

/-! ### Bits -/

variable {w w' : FrameBitmap} {i j : Nat} {b : UInt8}

theorem getLsbD_bit : (bit i).toBitVec.getLsbD (j % 8) = decide (j % 8 = i % 8) := by
  have hall : ∀ m < 8, ∀ n < 8, ((1 : UInt8) <<< UInt8.ofNat m).toBitVec.getLsbD n =
      decide (n = m) := by decide
  exact hall _ (Nat.mod_lt _ (by decide)) _ (Nat.mod_lt _ (by decide))

theorem and_bit_eq_zero_iff : b &&& bit i = 0 ↔ b.toBitVec.getLsbD (i % 8) = false := by
  constructor
  · intro h
    have hi : (b &&& bit i).toBitVec.getLsbD (i % 8) = false := by
      rw [h]
      exact BitVec.getLsbD_zero
    rw [UInt8.toBitVec_and, BitVec.getLsbD_and, getLsbD_bit] at hi
    simpa using hi
  · intro h
    refine UInt8.eq_of_toBitVec_eq (BitVec.eq_of_getLsbD_eq fun k hk => ?_)
    have hbit : (bit i).toBitVec.getLsbD k = decide (k = i % 8) := by
      have hmod := getLsbD_bit (i := i) (j := k)
      rwa [Nat.mod_eq_of_lt hk] at hmod
    rw [UInt8.toBitVec_and, BitVec.getLsbD_and, hbit]
    have hboth : (b.toBitVec.getLsbD k && decide (k = i % 8)) = false := by
      by_cases hki : k = i % 8
      · rw [hki, h, Bool.false_and]
      · rw [decide_eq_false hki, Bool.and_false]
    exact hboth.trans BitVec.getLsbD_zero.symm

theorem isUsed_eq (w : FrameBitmap) (i : Nat) :
    w.isUsed i = (w.bitmap (i / 8)).toBitVec.getLsbD (i % 8) := by
  rw [isUsed]
  cases hb : (w.bitmap (i / 8)).toBitVec.getLsbD (i % 8) with
  | false => rw [and_bit_eq_zero_iff.mpr hb, bne_self_eq_false]
  | true =>
      refine bne_iff_ne.mpr fun h => ?_
      rw [and_bit_eq_zero_iff, hb] at h
      cases h

theorem bitmap_markUsed (k : Nat) : (w.markUsed i).bitmap k =
    if k = i / 8 then w.bitmap (i / 8) ||| bit i else w.bitmap k := Function.update_apply ..

theorem bitmap_markFree (k : Nat) : (w.markFree i).bitmap k =
    if k = i / 8 then w.bitmap (i / 8) &&& ~~~bit i else w.bitmap k := Function.update_apply ..

/-- A frame is a byte and a bit in it. -/
theorem frame_eq_iff (hk : j / 8 = i / 8) : j = i ↔ j % 8 = i % 8 := by omega

theorem isUsed_markUsed : (w.markUsed i).isUsed j = (decide (j = i) || w.isUsed j) := by
  rw [isUsed_eq, isUsed_eq, bitmap_markUsed]
  by_cases hk : j / 8 = i / 8
  · rw [if_pos hk, hk, UInt8.toBitVec_or, BitVec.getLsbD_or, getLsbD_bit, Bool.or_comm,
      decide_eq_decide.mpr (frame_eq_iff hk)]
  · have hne : j ≠ i := fun h => hk (by rw [h])
    rw [if_neg hk, decide_eq_false hne, Bool.false_or]

theorem isUsed_markFree : (w.markFree i).isUsed j = (!decide (j = i) && w.isUsed j) := by
  rw [isUsed_eq, isUsed_eq, bitmap_markFree]
  by_cases hk : j / 8 = i / 8
  · have hlt : j % 8 < 8 := Nat.mod_lt _ (by decide)
    rw [if_pos hk, hk, UInt8.toBitVec_and, BitVec.getLsbD_and, UInt8.toBitVec_not,
      BitVec.getLsbD_not, getLsbD_bit, decide_eq_true hlt, Bool.true_and, Bool.and_comm,
      decide_eq_decide.mpr (frame_eq_iff hk)]
  · have hne : j ≠ i := fun h => hk (by rw [h])
    rw [if_neg hk, decide_eq_false hne, Bool.not_false, Bool.true_and]

theorem isUsed_init {memSizeBytes : Word} {storage : Nat → UInt8}
    (hi : i < (init memSizeBytes storage).totalFrames) :
    (init memSizeBytes storage).isUsed i = false := by
  have hk : i / 8 < (memSizeBytes.toNat / frameSize + 7) / 8 := by
    change i < memSizeBytes.toNat / frameSize at hi
    omega
  rw [isUsed, init]
  simp only [if_pos hk]
  simp

/-! ### As a set of frames -/

/-- The frames by their numbers. -/
def frames (w : FrameBitmap) : PhysicalFrameAllocator := ⟨w.isUsed, w.totalFrames⟩

theorem frames_markUsed : (w.markUsed i).frames = w.frames.markUsed i := by
  have hbits : (w.markUsed i).isUsed = (w.frames.markUsed i).bitmap := by
    funext j
    by_cases hj : j = i <;>
      simp [isUsed_markUsed, PhysicalFrameAllocator.markUsed, frames, hj]
  exact congrArg (PhysicalFrameAllocator.mk · w.totalFrames) hbits

theorem frames_markFree : (w.markFree i).frames = w.frames.markFree i := by
  have hbits : (w.markFree i).isUsed = (w.frames.markFree i).bitmap := by
    funext j
    by_cases hj : j = i <;>
      simp [isUsed_markFree, PhysicalFrameAllocator.markFree, frames, hj]
  exact congrArg (PhysicalFrameAllocator.mk · w.totalFrames) hbits

/-- There are no more frames than fit in the address space. -/
def Addressable (w : FrameBitmap) : Prop := w.totalFrames * frameSize ≤ 2 ^ 32

theorem frames_allocFrame (h : w.Addressable) :
    (w.allocFrame.1, w.allocFrame.2.frames) = w.frames.allocFrame := by
  have hsearch : (List.range' 0 w.frames.totalFrames).find? (fun i => !w.frames.isUsed i) =
      (List.range' 0 w.totalFrames).find? fun i => !w.isUsed i := rfl
  rw [allocFrame, PhysicalFrameAllocator.allocFrame, hsearch]
  cases hfind : (List.range' 0 w.totalFrames).find? fun i => !w.isUsed i with
  | none => rfl
  | some i =>
      have hlt : i < w.totalFrames := by simpa using List.mem_of_find?_eq_some hfind
      have hsmall : i * frameSize < 2 ^ 32 := by
        rw [Addressable, frameSize] at h
        rw [frameSize]
        omega
      simp only [Nat.mod_eq_of_lt hsmall, frames_markUsed]

/-- The lowest frame that is not in use is taken, or there is none. -/
theorem allocFrame_cases (h : w.Addressable) :
    (∃ i < w.totalFrames, w.isUsed i = false ∧ (∀ j < i, w.isUsed j = true) ∧
      w.allocFrame = (i * frameSize, w.markUsed i)) ∨
        ((∀ j < w.totalFrames, w.isUsed j = true) ∧ w.allocFrame = (0, w)) := by
  rw [allocFrame]
  cases hfind : (List.range' 0 w.totalFrames).find? fun i => !w.isUsed i with
  | none =>
      refine .inr ⟨fun j hj => ?_, rfl⟩
      simpa using List.find?_eq_none.mp hfind j (by simpa using hj)
  | some i =>
      obtain ⟨hfree, hmem, hlow⟩ := List.find?_range'_eq_some.mp hfind
      have hlt : i < w.totalFrames := by simpa using hmem
      have hsmall : i * frameSize < 2 ^ 32 := by
        rw [Addressable, frameSize] at h
        rw [frameSize]
        omega
      refine .inl ⟨i, hlt, by simpa using hfree, fun j hj => ?_, ?_⟩
      · simpa using hlow j (Nat.zero_le j) hj
      · simp only [Nat.mod_eq_of_lt hsmall]

/-! ### Runs -/

/-- A call, for `allocFrame` with what it returns. -/
inductive Event where
  | markUsed (i : Nat)
  | allocFrame (addr : Nat)
  | freeFrame (addr : Nat)

inductive Step (w : FrameBitmap) : Event → FrameBitmap → Prop where
  | markUsed {i : Nat} : Step w (.markUsed i) (w.markUsed i)
  | allocFrame : Step w (.allocFrame w.allocFrame.1) w.allocFrame.2
  | freeFrame {addr : Nat} : Step w (.freeFrame addr) (w.freeFrame addr)

/-- What a call does to the use of frames. -/
def uses : Event → Option (Ownership.Event Nat Unit)
  | .markUsed i => some (.claimed i ())
  | .allocFrame addr => if addr = 0 then none else some (.claimed (addr / frameSize) ())
  | .freeFrame addr => some (.released (addr / frameSize) ())

/-- What a call does to the addresses that `allocFrame` hands out. -/
def hands : Event → Option (Ownership.Event Nat Unit)
  | .markUsed _ => none
  | .allocFrame addr => if addr = 0 then none else some (.claimed addr ())
  | .freeFrame addr => some (.released addr ())

/-- The frame 0, which is marked before, and what was marked or handed out and has not been freed
since. -/
def InUse (es : List Event) (i : Nat) : Prop := i = 0 ∨ Ownership.Holds (es.filterMap uses) i ()

def HandedOut (es : List Event) (addr : Nat) : Prop :=
  Ownership.Holds (es.filterMap hands) addr ()

/-- Marked frames exist, and only what is handed out is freed. -/
def Allowed (totalFrames : Nat) (pre : List Event) : Event → Prop
  | .markUsed i => i < totalFrames
  | .allocFrame _ => True
  | .freeFrame addr => HandedOut pre addr

variable {es : List Event} {addr n : Nat}

theorem inUse_markUsed : InUse (es ++ [Event.markUsed i]) j ↔ j = i ∨ InUse es j := by
  rw [InUse, InUse, Ownership.holds_filterMap_concat
    (show uses (.markUsed i) = some (.claimed i ()) from rfl)]
  simp only [Ownership.Event.claimed.injEq, and_true, ne_eq, reduceCtorEq, not_false_eq_true]
  rw [eq_comm (a := i)]
  exact or_left_comm

theorem inUse_allocFrame (haddr : addr ≠ 0) :
    InUse (es ++ [Event.allocFrame addr]) j ↔ j = addr / frameSize ∨ InUse es j := by
  rw [InUse, InUse, Ownership.holds_filterMap_concat
    (show uses (.allocFrame addr) = some (.claimed (addr / frameSize) ()) from if_neg haddr)]
  simp only [Ownership.Event.claimed.injEq, and_true, ne_eq, reduceCtorEq, not_false_eq_true]
  rw [eq_comm (a := addr / frameSize)]
  exact or_left_comm

theorem inUse_freeFrame :
    InUse (es ++ [Event.freeFrame addr]) j ↔ InUse es j ∧ (j = 0 ∨ j ≠ addr / frameSize) := by
  rw [InUse, InUse, Ownership.holds_filterMap_concat
    (show uses (.freeFrame addr) = some (.released (addr / frameSize) ()) from rfl)]
  simp only [reduceCtorEq, false_or, ne_eq, Ownership.Event.released.injEq, and_true]
  rw [eq_comm (a := addr / frameSize)]
  by_cases hj : j = 0 <;> simp [hj]

theorem handedOut_allocFrame {a : Nat} (haddr : addr ≠ 0) :
    HandedOut (es ++ [Event.allocFrame addr]) a ↔ a = addr ∨ HandedOut es a := by
  rw [HandedOut, HandedOut, Ownership.holds_filterMap_concat
    (show hands (.allocFrame addr) = some (.claimed addr ()) from if_neg haddr)]
  simp only [Ownership.Event.claimed.injEq, and_true, ne_eq, reduceCtorEq, not_false_eq_true]
  rw [eq_comm (a := addr)]

theorem handedOut_freeFrame {a : Nat} :
    HandedOut (es ++ [Event.freeFrame addr]) a ↔ HandedOut es a ∧ a ≠ addr := by
  rw [HandedOut, HandedOut, Ownership.holds_filterMap_concat
    (show hands (.freeFrame addr) = some (.released addr ()) from rfl)]
  simp only [reduceCtorEq, false_or, ne_eq, Ownership.Event.released.injEq, and_true]
  rw [eq_comm (a := addr)]

theorem handedOut_markUsed {a : Nat} :
    HandedOut (es ++ [Event.markUsed i]) a ↔ HandedOut es a :=
  Ownership.holds_filterMap_concat_none rfl

/-- The bits are the history, and what is handed out is the address of a frame in use. -/
structure Books (n : Nat) (es : List Event) (w : FrameBitmap) : Prop where
  total : w.totalFrames = n
  addressable : w.Addressable
  bits : ∀ i < n, w.isUsed i = true ↔ InUse es i
  handed : ∀ addr, HandedOut es addr → ∃ i, i ≠ 0 ∧ i < n ∧ addr = i * frameSize ∧ InUse es i

theorem Books.markUsed (h : Books n es w) : Books n (es ++ [.markUsed i]) (w.markUsed i) where
  total := h.total
  addressable := h.addressable
  bits j hj := by
    rw [isUsed_markUsed, Bool.or_eq_true, decide_eq_true_iff, h.bits j hj, inUse_markUsed]
  handed addr ha := by
    obtain ⟨k, hk, hlt, he, hu⟩ := h.handed addr (handedOut_markUsed.mp ha)
    exact ⟨k, hk, hlt, he, inUse_markUsed.mpr (.inr hu)⟩

/-- The frame 0 is in use, so what is handed out is not `nullptr`. -/
theorem Books.allocFrame_cases (h : Books n es w) :
    (∃ i < n, i ≠ 0 ∧ ¬ InUse es i ∧ (∀ j < i, InUse es j) ∧
      w.allocFrame = (i * frameSize, w.markUsed i)) ∨
        ((∀ j < n, InUse es j) ∧ w.allocFrame = (0, w)) := by
  have hn := h.total
  rcases FrameBitmap.allocFrame_cases h.addressable with ⟨i, hi, hfree, hlow, ha⟩ | ⟨hall, ha⟩
  · rw [hn] at hi
    have hnot : ¬ InUse es i := by
      rw [← h.bits i hi, hfree]
      exact Bool.false_ne_true
    refine .inl ⟨i, hi, fun h0 => hnot (.inl h0), hnot, fun j hj => ?_, ha⟩
    exact (h.bits j (Nat.lt_trans hj hi)).mp (hlow j hj)
  · refine .inr ⟨fun j hj => (h.bits j hj).mp (hall j ?_), ha⟩
    rwa [hn]

theorem Books.allocFrame (h : Books n es w) :
    Books n (es ++ [.allocFrame w.allocFrame.1]) w.allocFrame.2 := by
  rcases h.allocFrame_cases with ⟨i, hi, h0, hnot, -, ha⟩ | ⟨-, ha⟩
  · rw [ha]
    have hne : i * frameSize ≠ 0 := Nat.mul_ne_zero h0 (by decide)
    have hdiv : i * frameSize / frameSize = i := Nat.mul_div_cancel _ (by decide)
    refine ⟨h.total, h.addressable, fun j hj => ?_, fun a hout => ?_⟩
    · rw [isUsed_markUsed, Bool.or_eq_true, decide_eq_true_iff, h.bits j hj,
        inUse_allocFrame hne, hdiv]
    · rcases (handedOut_allocFrame hne).mp hout with rfl | hout
      · exact ⟨i, h0, hi, rfl, (inUse_allocFrame hne).mpr (.inl hdiv.symm)⟩
      · obtain ⟨k, hk, hlt, he, hu⟩ := h.handed a hout
        exact ⟨k, hk, hlt, he, (inUse_allocFrame hne).mpr (.inr hu)⟩
  · rw [ha]
    have huses : ∀ j, InUse (es ++ [Event.allocFrame 0]) j ↔ InUse es j := fun j =>
      or_congr_right (Ownership.holds_filterMap_concat_none rfl)
    refine ⟨h.total, h.addressable, fun j hj => ?_, fun a hout => ?_⟩
    · rw [h.bits j hj, huses]
    · obtain ⟨k, hk, hlt, he, hu⟩ := h.handed a
        ((Ownership.holds_filterMap_concat_none rfl).mp hout)
      exact ⟨k, hk, hlt, he, (huses k).mpr hu⟩

theorem Books.freeFrame (h : Books n es w) (hout : HandedOut es addr) :
    Books n (es ++ [.freeFrame addr]) (w.freeFrame addr) := by
  obtain ⟨i, h0, hi, rfl, -⟩ := h.handed addr hout
  have hdiv : i * frameSize / frameSize = i := Nat.mul_div_cancel _ (by decide)
  refine ⟨h.total, h.addressable, fun j hj => ?_, fun a ha => ?_⟩
  · rw [FrameBitmap.freeFrame, hdiv, isUsed_markFree, Bool.and_eq_true, h.bits j hj,
      inUse_freeFrame, hdiv, and_comm]
    refine and_congr_right fun _ => ?_
    rw [Bool.not_eq_true', decide_eq_false_iff_not]
    refine ⟨.inr, fun hj => ?_⟩
    rcases hj with rfl | hj
    · exact Ne.symm h0
    · exact hj
  · obtain ⟨hout', hne⟩ := handedOut_freeFrame.mp ha
    obtain ⟨k, hk, hlt, rfl, hu⟩ := h.handed a hout'
    refine ⟨k, hk, hlt, rfl, inUse_freeFrame.mpr ⟨hu, .inr ?_⟩⟩
    rw [hdiv]
    rintro rfl
    exact hne rfl

theorem books_init (memSizeBytes : Word) (storage : Nat → UInt8) :
    Books (memSizeBytes.toNat / frameSize) [] ((init memSizeBytes storage).markUsed 0) where
  total := rfl
  addressable :=
    Nat.le_trans (Nat.div_mul_le_self _ _) (Nat.le_of_lt memSizeBytes.isLt)
  bits i hi := by
    rw [isUsed_markUsed, isUsed_init hi, Bool.or_false, decide_eq_true_iff]
    exact (or_iff_left (Ownership.not_holds_nil i ())).symm
  handed addr ha := absurd ha (Ownership.not_holds_nil addr ())

theorem books_of_run (memSizeBytes : Word) (storage : Nat → UInt8)
    (run : Run Step ((init memSizeBytes storage).markUsed 0) es w)
    (hes : Along (Allowed (memSizeBytes.toNat / frameSize)) es) :
    Books (memSizeBytes.toNat / frameSize) es w := by
  refine run.invHist (I := fun es w => Along (Allowed (memSizeBytes.toNat / frameSize)) es →
    Books (memSizeBytes.toNat / frameSize) es w) (fun _ => books_init memSizeBytes storage)
    (fun _ ih hstep hes => ?_) hes
  obtain ⟨hpre, hallowed⟩ := (along_concat_iff _ _).mp hes
  cases hstep with
  | markUsed => exact (ih hpre).markUsed
  | allocFrame => exact (ih hpre).allocFrame
  | freeFrame => exact (ih hpre).freeFrame hallowed

/-- **Frames are handed out exclusively.**  In every state that calls lead to after `init`, of a
memory of any size, `allocFrame` takes the lowest frame that is not in use and no other, or returns
`nullptr` where all are, never what is handed out already; and `freeFrame` gives back its frame only. -/
theorem frame_allocation_exclusive (memSizeBytes : Word) (storage : Nat → UInt8)
    (run : Run Step ((init memSizeBytes storage).markUsed 0) es w)
    (hes : Along (Allowed (memSizeBytes.toNat / frameSize)) es) :
    ((∃ i < w.totalFrames, ¬ InUse es i ∧ (∀ j < i, InUse es j) ∧
        w.allocFrame.1 = i * frameSize ∧
          ∀ j, w.allocFrame.2.isUsed j = (decide (j = i) || w.isUsed j)) ∨
      ((∀ j < w.totalFrames, InUse es j) ∧ w.allocFrame = (0, w))) ∧
    (w.allocFrame.1 = 0 ↔ ∀ j < w.totalFrames, InUse es j) ∧
    (∀ i < w.totalFrames, w.isUsed i = true ↔ InUse es i) ∧
    ∀ addr, HandedOut es addr → w.allocFrame.1 ≠ addr ∧ InUse es (addr / frameSize) ∧
      ∀ j, (w.freeFrame addr).isUsed j = (!decide (j = addr / frameSize) && w.isUsed j) := by
  have h := books_of_run memSizeBytes storage run hes
  have hcases := h.allocFrame_cases
  have hbits := h.bits
  rw [← h.total] at hcases hbits
  refine ⟨?_, ?_, hbits, fun addr hout => ?_⟩
  · rcases hcases with ⟨i, hi, -, hnot, hlow, ha⟩ | hnone
    · refine .inl ⟨i, hi, hnot, hlow, by rw [ha], fun j => ?_⟩
      rw [ha, isUsed_markUsed]
    · exact .inr hnone
  · rcases hcases with ⟨i, hi, h0, hnot, -, ha⟩ | ⟨hall, ha⟩
    · rw [ha]
      exact iff_of_false (Nat.mul_ne_zero h0 (by decide)) fun hall => hnot (hall i hi)
    · rw [ha]
      exact iff_of_true rfl hall
  · obtain ⟨i, h0, hi, rfl, hu⟩ := h.handed addr hout
    rw [Nat.mul_div_cancel _ (by decide : 0 < frameSize)]
    refine ⟨fun heq => ?_, hu, fun j => ?_⟩
    · rcases hcases with ⟨k, -, -, hnot, -, ha⟩ | ⟨-, ha⟩
      · rw [ha] at heq
        exact hnot (Nat.eq_of_mul_eq_mul_right (by decide) heq ▸ hu)
      · rw [ha] at heq
        exact Nat.mul_ne_zero h0 (by decide) heq.symm
    · rw [freeFrame, Nat.mul_div_cancel _ (by decide : 0 < frameSize), isUsed_markFree]

/-- With ten frames, the first call hands out the second frame. -/
theorem frame_allocation_exclusive_ten :
    Run Step ((init 0xA000 fun _ => 0).markUsed 0) [.allocFrame 0x1000]
        (((init 0xA000 fun _ => 0).markUsed 0).markUsed 1) ∧
      (((init 0xA000 fun _ => 0).markUsed 0).markUsed 1).allocFrame.1 ≠ 0x1000 := by
  have hrun : Run Step ((init 0xA000 fun _ => 0).markUsed 0) [.allocFrame 0x1000]
      (((init 0xA000 fun _ => 0).markUsed 0).markUsed 1) := .single .allocFrame
  have hes : Along (Allowed ((0xA000 : Word).toNat / frameSize)) [.allocFrame 0x1000] :=
    (along_concat_iff [] _).mpr ⟨along_nil _, trivial⟩
  have hout : HandedOut [Event.allocFrame 0x1000] 0x1000 :=
    show HandedOut ([] ++ [Event.allocFrame 0x1000]) 0x1000 from
      (handedOut_allocFrame (by decide)).mpr (.inl rfl)
  exact ⟨hrun, ((frame_allocation_exclusive 0xA000 (fun _ => 0) hrun hes).2.2.2 _ hout).1⟩

end FrameBitmap
end RivOS
