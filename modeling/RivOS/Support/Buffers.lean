import Mathlib.Data.List.Basic

/-!
# Support — Buffers from an allocator

An allocator as its callers see it.  The state `σ` is the allocator's own; a buffer that has been
handed out is in the caller's hands, with its bytes, until the caller gives it back.

* `Allocator.Lawful`: what a caller may count on while the state satisfies `Inv` and no more than
  `limit` bytes are asked for at once.  A buffer has the length asked for, and one that was given
  back can be had again.
-/

namespace RivOS

universe u

/-- A block in the hands of the code that asked for it: where it lies and what is in it. -/
structure Buffer where
  addr : Nat
  bytes : List UInt8
deriving DecidableEq

structure Allocator (σ : Type u) where
  alloc : Nat → σ → Option Buffer × σ
  free : Buffer → σ → σ

namespace Allocator

variable {σ : Type u} (al : Allocator σ) {Inv : σ → Prop} {limit n : Nat} {s t : σ} {b : Buffer}

/-- A request for `n` bytes is met. -/
def HasRoom (n : Nat) (s : σ) : Prop := (al.alloc n s).1.isSome

instance : Decidable (al.HasRoom n s) := inferInstanceAs (Decidable (_ = true))

structure Lawful (Inv : σ → Prop) (limit : Nat) : Prop where
  keeps : ∀ {n s}, Inv s → n ≤ limit → Inv (al.alloc n s).2
  sized : ∀ {n s b t}, al.alloc n s = (some b, t) → b.bytes.length = n
  back : ∀ {n s b t bs}, Inv s → n ≤ limit → al.alloc n s = (some b, t) → bs.length = n →
    Inv (al.free ⟨b.addr, bs⟩ t) ∧ al.HasRoom n (al.free ⟨b.addr, bs⟩ t)

variable {al}

theorem HasRoom.buffer (h : al.HasRoom n s) : ∃ b t, al.alloc n s = (some b, t) := by
  obtain ⟨b, hb⟩ := Option.isSome_iff_exists.mp h
  exact ⟨b, _, Prod.ext hb rfl⟩

theorem refused (h : ¬ al.HasRoom n s) : ∃ t, al.alloc n s = (none, t) :=
  ⟨_, Prod.ext (by simpa [HasRoom] using h) rfl⟩

end Allocator

/-! ### Accesses -/

/-- Some bytes of a buffer that are read or written. -/
structure Access where
  size : Nat
  off : Nat
  len : Nat

abbrev Access.Inside (a : Access) : Prop := a.off + a.len ≤ a.size

def Inside (as : List Access) : Prop := ∀ a ∈ as, a.Inside

instance (as : List Access) : Decidable (Inside as) := inferInstanceAs (Decidable (∀ a ∈ as, _))

@[simp] theorem inside_nil : Inside [] := nofun

@[simp] theorem inside_cons {a : Access} {as : List Access} :
    Inside (a :: as) ↔ a.Inside ∧ Inside as := List.forall_mem_cons

@[simp] theorem inside_append {as bs : List Access} :
    Inside (as ++ bs) ↔ Inside as ∧ Inside bs := List.forall_mem_append

end RivOS
