import Mathlib.Algebra.Group.Nat.Defs
import Mathlib.Logic.Function.Basic
import Mathlib.Data.List.Basic

/-!
# Mem — Physical frames

`mem/page.hpp`.  The bitmap is a predicate on frame numbers, and a frame is named by its address,
`0` standing for `nullptr`.

* `allocFrame_cases`: a free frame, now used, or `nullptr` when there is none.
* `freeFrames`: how many frames are left; each allocation takes one (`freeFrames_allocFrame`), and
  while one is left an allocation gets it (`allocFrame_of_free`).
-/

namespace RivOS

structure PhysicalFrameAllocator where
  bitmap : Nat → Bool
  totalFrames : Nat

namespace PhysicalFrameAllocator

/-- `FRAME_SIZE`. -/
def frameSize : Nat := 4096

variable (pfa : PhysicalFrameAllocator)

def isUsed (i : Nat) : Bool := pfa.bitmap i

def markUsed (i : Nat) : PhysicalFrameAllocator :=
  { pfa with bitmap := Function.update pfa.bitmap i true }

def allocFrame : Nat × PhysicalFrameAllocator :=
  match (List.range' 0 pfa.totalFrames).find? fun i => !pfa.isUsed i with
  | some i => (i * frameSize, pfa.markUsed i)
  | none => (0, pfa)

def markFree (i : Nat) : PhysicalFrameAllocator :=
  { pfa with bitmap := Function.update pfa.bitmap i false }

def freeFrame (addr : Nat) : PhysicalFrameAllocator := pfa.markFree (addr / frameSize)

/-- The number of free frames. -/
def freeFrames : Nat := (List.range' 0 pfa.totalFrames).countP fun i => !pfa.isUsed i

variable {pfa} {i : Nat}

@[simp] theorem isUsed_markUsed_self : (pfa.markUsed i).isUsed i = true := Function.update_self ..

theorem isUsed_markUsed_of_ne {j : Nat} (h : j ≠ i) : (pfa.markUsed i).isUsed j = pfa.isUsed j :=
  Function.update_of_ne h ..

theorem isUsed_markUsed_mono {j : Nat} (h : pfa.isUsed j = true) :
    (pfa.markUsed i).isUsed j = true := by
  by_cases hj : j = i
  · rw [hj, isUsed_markUsed_self]
  · rw [isUsed_markUsed_of_ne hj, h]

theorem allocFrame_cases (pfa : PhysicalFrameAllocator) :
    (∃ i, pfa.isUsed i = false ∧ pfa.allocFrame.1 = i * frameSize ∧
      pfa.allocFrame.2 = pfa.markUsed i) ∨
      (pfa.allocFrame.1 = 0 ∧ pfa.allocFrame.2 = pfa ∧ pfa.freeFrames = 0) := by
  rw [allocFrame]
  split
  · rename_i i hi
    have hfree := List.find?_some hi
    exact .inl ⟨i, by simpa using hfree, rfl, rfl⟩
  · rename_i hnone
    rw [List.find?_eq_none] at hnone
    exact .inr ⟨rfl, rfl, List.countP_eq_zero.mpr hnone⟩

/-- A frame that is not `nullptr` was free. -/
theorem allocFrame_of_ne_zero (hne : pfa.allocFrame.1 ≠ 0) :
    ∃ i, i ≠ 0 ∧ pfa.isUsed i = false ∧ pfa.allocFrame.1 = i * frameSize ∧
      pfa.allocFrame.2 = pfa.markUsed i := by
  rcases pfa.allocFrame_cases with ⟨i, hfree, hphys, hpfa⟩ | ⟨hnull, -, -⟩
  · refine ⟨i, ?_, hfree, hphys, hpfa⟩
    rintro rfl
    exact hne (hphys.trans (Nat.zero_mul _))
  · exact absurd hnull hne

/-- With frame 0 in use, only a failed allocation gives `nullptr`. -/
theorem allocFrame_null (h₀ : pfa.isUsed 0 = true) (h : pfa.allocFrame.1 = 0) :
    pfa.allocFrame.2 = pfa ∧ pfa.freeFrames = 0 := by
  rcases pfa.allocFrame_cases with ⟨i, hfree, hphys, -⟩ | ⟨-, hsame, hnone⟩
  · obtain rfl : i = 0 := (Nat.mul_eq_zero.mp (hphys.symm.trans h)).resolve_right (by decide)
    rw [h₀] at hfree
    cases hfree
  · exact ⟨hsame, hnone⟩

theorem allocFrame_of_none (h : pfa.freeFrames = 0) : pfa.allocFrame = (0, pfa) := by
  rw [allocFrame, List.find?_eq_none.mpr (List.countP_eq_zero.mp h)]

theorem allocFrame_of_free (h₀ : pfa.isUsed 0 = true) (hfree : 0 < pfa.freeFrames) :
    pfa.allocFrame.1 ≠ 0 :=
  fun h => Nat.ne_of_gt hfree (allocFrame_null h₀ h).2

theorem freeFrames_allocFrame (hne : pfa.allocFrame.1 ≠ 0) :
    pfa.freeFrames ≤ pfa.allocFrame.2.freeFrames + 1 := by
  obtain ⟨i, -, -, -, hpfa⟩ := allocFrame_of_ne_zero hne
  rw [hpfa]
  have hcount : ∀ l : List Nat, l.Nodup → l.countP (fun j => !pfa.isUsed j) ≤
      l.countP (fun j => !(pfa.markUsed i).isUsed j) + 1 := by
    intro l hl
    induction l with
    | nil => simp
    | cons j l ih =>
        have hnd := List.nodup_cons.mp hl
        by_cases hj : j = i
        · -- past the frame taken, nothing changes
          subst hj
          have hsame : l.countP (fun k => !pfa.isUsed k) =
              l.countP (fun k => !(pfa.markUsed j).isUsed k) := List.countP_congr fun k hk => by
            have hne : k ≠ j := fun hkj => hnd.1 (hkj ▸ hk)
            rw [isUsed_markUsed_of_ne hne]
          rw [List.countP_cons, List.countP_cons, hsame]
          split <;> omega
        · rw [List.countP_cons, List.countP_cons, isUsed_markUsed_of_ne hj]
          have := ih hnd.2
          omega
  exact hcount _ List.nodup_range'

theorem isUsed_allocFrame (h : pfa.isUsed i = true) : pfa.allocFrame.2.isUsed i = true := by
  rcases pfa.allocFrame_cases with ⟨j, -, -, hpfa⟩ | ⟨-, hsame, -⟩
  · rw [hpfa]
    exact isUsed_markUsed_mono h
  · rw [hsame, h]

end PhysicalFrameAllocator

end RivOS
