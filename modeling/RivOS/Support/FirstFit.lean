import Mathlib.Algebra.Group.Nat.Defs
import Mathlib.Data.List.Basic

/-!
# Support — First-fit arenas

An arena is a row of blocks, each a header of `h` bytes and a payload, that tile a range of
addresses from its start (`Tiled`).  A request takes the first free block that is large enough,
whole, and otherwise adds a block at the end (`alloc`); a block given back stays where it is
(`setUse`).

* `Tiled.pairwise`: of two blocks the earlier one stops before the later one starts, so headers
  and payloads never overlap (`Tiled.disjoint`).
* `Tiled.setUse`, `Tiled.concat`: both ways of changing the row keep it tiled.
-/

namespace RivOS.FirstFit

structure Block where
  addr : Nat
  size : Nat
  inUse : Bool
deriving DecidableEq

namespace Block

/-- The first address of the payload. -/
def payload (h : Nat) (b : Block) : Nat := b.addr + h

/-- The first address after the payload. -/
def stop (h : Nat) (b : Block) : Nat := b.addr + h + b.size

def InHeader (h x : Nat) (b : Block) : Prop := b.addr ≤ x ∧ x < b.payload h

def InPayload (h x : Nat) (b : Block) : Prop := b.payload h ≤ x ∧ x < b.stop h

/-- A request for `n` bytes can have the block. -/
def fits (n : Nat) (b : Block) : Bool := !b.inUse && n ≤ b.size

end Block

variable {h lo a n : Nat} {bs : List Block} {b c : Block} {v : Bool}

/-- Each block starts where the one before it stops, the first at `lo`. -/
def Tiled (h : Nat) : Nat → List Block → Prop
  | _, [] => True
  | lo, b :: bs => b.addr = lo ∧ Tiled h (b.stop h) bs

/-- Where a row of blocks that starts at `lo` stops. -/
def finish (h : Nat) : Nat → List Block → Nat
  | lo, [] => lo
  | _, b :: bs => finish h (b.stop h) bs

/-- Mark the block at `a`. -/
def setUse (a : Nat) (v : Bool) (bs : List Block) : List Block :=
  bs.map fun b => if b.addr = a then { b with inUse := v } else b

/-! ### Tilings -/

theorem le_finish (ht : Tiled h lo bs) : lo ≤ finish h lo bs := by
  induction bs generalizing lo with
  | nil => exact Nat.le_refl lo
  | cons b bs ih =>
      obtain ⟨rfl, ht⟩ := ht
      have := ih ht
      simp only [Block.stop] at this
      simp only [finish, Block.stop]
      omega

theorem Tiled.bounds (ht : Tiled h lo bs) (hb : b ∈ bs) :
    lo ≤ b.addr ∧ b.stop h ≤ finish h lo bs := by
  induction bs generalizing lo with
  | nil => cases hb
  | cons c bs ih =>
      obtain ⟨rfl, ht⟩ := ht
      have hf := le_finish ht
      rcases List.mem_cons.mp hb with rfl | hb
      · exact ⟨Nat.le_refl _, hf⟩
      · obtain ⟨h₁, h₂⟩ := ih ht hb
        simp only [Block.stop] at h₁
        exact ⟨by omega, h₂⟩

/-- The blocks lie one after the other. -/
theorem Tiled.pairwise (ht : Tiled h lo bs) :
    bs.Pairwise fun b c => b.stop h ≤ c.addr := by
  induction bs generalizing lo with
  | nil => exact .nil
  | cons b bs ih => exact .cons (fun c hc => (ht.2.bounds hc).1) (ih ht.2)

/-- Blocks with a header have different addresses. -/
theorem Tiled.eq_of_addr (ht : Tiled h lo bs) (hh : 0 < h) (hb : b ∈ bs) (hc : c ∈ bs)
    (e : b.addr = c.addr) : b = c := by
  induction bs generalizing lo with
  | nil => cases hb
  | cons d bs ih =>
      obtain ⟨rfl, ht⟩ := ht
      have later : ∀ x ∈ bs, d.addr < x.addr := fun x hx => by
        have := (ht.bounds hx).1
        simp only [Block.stop] at this
        omega
      rcases List.mem_cons.mp hb with rfl | hb' <;> rcases List.mem_cons.mp hc with rfl | hc'
      · rfl
      · exact absurd e (Nat.ne_of_lt (later c hc'))
      · exact absurd e (Nat.ne_of_gt (later b hb'))
      · exact ih ht hb' hc'

/-- Of two different blocks one lies before the other. -/
theorem Tiled.separate (ht : Tiled h lo bs) (hb : b ∈ bs) (hc : c ∈ bs) (hne : b ≠ c) :
    b.stop h ≤ c.addr ∨ c.stop h ≤ b.addr := by
  induction bs generalizing lo with
  | nil => cases hb
  | cons d bs ih =>
      obtain ⟨rfl, ht⟩ := ht
      rcases List.mem_cons.mp hb with rfl | hb' <;> rcases List.mem_cons.mp hc with rfl | hc'
      · exact absurd rfl hne
      · exact .inl (ht.bounds hc').1
      · exact .inr (ht.bounds hb').1
      · exact ih ht hb' hc'

/-- No payload meets another one, or any header. -/
theorem Tiled.disjoint (ht : Tiled h lo bs) (hb : b ∈ bs) (hc : c ∈ bs) {x : Nat}
    (hx : b.InPayload h x) : ¬ c.InHeader h x ∧ (b ≠ c → ¬ c.InPayload h x) := by
  simp only [Block.InPayload, Block.InHeader, Block.payload, Block.stop] at hx ⊢
  by_cases hbc : b = c
  · subst hbc
    exact ⟨by omega, fun h => absurd rfl h⟩
  · have := ht.separate hb hc hbc
    simp only [Block.stop] at this
    omega

theorem finish_concat : finish h lo (bs ++ [b]) = b.stop h := by
  induction bs generalizing lo with
  | nil => rfl
  | cons c bs ih => exact ih

theorem Tiled.concat (ht : Tiled h lo bs) (hb : b.addr = finish h lo bs) :
    Tiled h lo (bs ++ [b]) := by
  induction bs generalizing lo with
  | nil => exact ⟨hb, trivial⟩
  | cons c bs ih => exact ⟨ht.1, ih ht.2 hb⟩

/-! ### Marking a block -/

theorem mem_setUse : b ∈ setUse a v bs ↔
    ∃ c ∈ bs, b = if c.addr = a then { c with inUse := v } else c := by
  simp only [setUse, List.mem_map, eq_comm]

theorem setUse_addr_size (c : Block) :
    (if c.addr = a then { c with inUse := v } else c).addr = c.addr ∧
      (if c.addr = a then { c with inUse := v } else c).size = c.size := by
  split <;> exact ⟨rfl, rfl⟩

theorem finish_setUse : finish h lo (setUse a v bs) = finish h lo bs := by
  induction bs generalizing lo with
  | nil => rfl
  | cons b bs ih =>
      obtain ⟨h₁, h₂⟩ := setUse_addr_size (a := a) (v := v) b
      have hstop : Block.stop h (if b.addr = a then { b with inUse := v } else b) = b.stop h := by
        rw [Block.stop, h₁, h₂, Block.stop]
      rw [setUse, List.map_cons, finish, hstop]
      exact ih

theorem Tiled.setUse (ht : Tiled h lo bs) : Tiled h lo (setUse a v bs) := by
  induction bs generalizing lo with
  | nil => trivial
  | cons b bs ih =>
      obtain ⟨h₁, h₂⟩ := setUse_addr_size (a := a) (v := v) b
      have hstop : Block.stop h (if b.addr = a then { b with inUse := v } else b) = b.stop h := by
        rw [Block.stop, h₁, h₂, Block.stop]
      refine ⟨h₁.trans ht.1, ?_⟩
      rw [hstop]
      exact ih ht.2

end RivOS.FirstFit
