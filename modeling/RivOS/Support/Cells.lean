import Mathlib.Data.List.Basic
import RivOS.Support.Memory

/-!
# Support — Arrays of elements in memory

Elements of a type `T` that are a fixed number of bytes each, one behind the other from an address
on.  An element is read and written as a whole.

* `Codec.copy`: elements copied one after the other, the first one first.
* `Codec.Holds`: the array at an address has these elements.  `Holds.concat`, `Holds.set`,
  `Holds.copy` and `Holds.erase` are what a write behind the last element, a write to one of them, a
  copy to another place and a copy down by one do to it.
-/

namespace RivOS

universe u

/-- Elements as bytes. -/
structure Codec (T : Type u) where
  sizeof : Nat
  pos : 0 < sizeof
  encode : T → List UInt8
  decode : List UInt8 → T
  length_encode : ∀ x, (encode x).length = sizeof
  decode_encode : ∀ x, decode (encode x) = x

namespace Codec

variable {T : Type u} (C : Codec T)

def read (m : Mem) (a : Nat) : T := C.decode (load m a C.sizeof)

def write (m : Mem) (a : Nat) (x : T) : Mem := store m a (C.encode x)

/-- `n` elements from `s` on copied to `d`. -/
def copy (m : Mem) (d s : Nat) : Nat → Mem
  | 0 => m
  | n + 1 =>
      let m := copy m d s n
      C.write m (d + n * C.sizeof) (C.read m (s + n * C.sizeof))

/-- The elements from `a` on are `xs`. -/
def Holds (m : Mem) (a : Nat) (xs : List T) : Prop :=
  ∀ i x, xs[i]? = some x → C.read m (a + i * C.sizeof) = x

variable {C} {m m' : Mem} {a d s i j n : Nat} {x : T} {xs : List T}

theorem read_congr (h : ∀ y, a ≤ y → y < a + C.sizeof → m' y = m y) : C.read m' a = C.read m a :=
  congrArg C.decode (load_congr h)

theorem write_of_not_mem {y : Nat} (h : y < a ∨ a + C.sizeof ≤ y) : C.write m a x y = m y :=
  store_of_not_mem (by rwa [C.length_encode])

theorem read_write : C.read (C.write m a x) a = x := by
  rw [read, write, ← C.length_encode x, load_store, C.decode_encode]

/-- An element ends before the next one begins. -/
theorem cell_le (h : i < n) : i * C.sizeof + C.sizeof ≤ n * C.sizeof := by
  rw [← Nat.succ_mul]
  exact Nat.mul_le_mul_right _ h

/-! ### Copying -/

theorem copy_of_not_mem {y : Nat} (h : y < d ∨ d + n * C.sizeof ≤ y) : C.copy m d s n y = m y := by
  induction n with
  | zero => rfl
  | succ n ih =>
      rw [Nat.succ_mul] at h
      rw [copy, write_of_not_mem (by omega), ih (by omega)]

/-- A copy downwards, or to a place behind the source, has every element. -/
theorem read_copy (h : d ≤ s ∨ s + n * C.sizeof ≤ d) (hi : i < n) :
    C.read (C.copy m d s n) (d + i * C.sizeof) = C.read m (s + i * C.sizeof) := by
  induction n with
  | zero => exact absurd hi (Nat.not_lt_zero i)
  | succ n ih =>
      rw [Nat.succ_mul] at h
      rw [copy]
      rcases Nat.lt_or_eq_of_le (Nat.le_of_lt_succ hi) with hin | rfl
      · have := cell_le (C := C) hin
        rw [← ih (by omega) hin]
        exact read_congr fun y _ _ => write_of_not_mem (by omega)
      · -- the element copied last: nothing of it has been overwritten
        rw [read_write]
        exact read_congr fun y _ _ => copy_of_not_mem (by omega)

/-! ### The elements of an array -/

theorem holds_nil (m : Mem) (a : Nat) : C.Holds m a [] := fun _ _ h => by cases h

theorem Holds.congr (h : C.Holds m a xs)
    (hm : ∀ y, a ≤ y → y < a + xs.length * C.sizeof → m' y = m y) : C.Holds m' a xs := by
  intro i x hx
  have := cell_le (C := C) (List.getElem?_eq_some_iff.mp hx).1
  rw [← h i x hx]
  exact read_congr fun y _ _ => hm y (by omega) (by omega)

theorem Holds.dropLast (h : C.Holds m a xs) : C.Holds m a xs.dropLast := by
  intro i x hx
  rw [List.getElem?_dropLast] at hx
  split at hx
  · exact h i x hx
  · cases hx

theorem Holds.concat (h : C.Holds m a xs) (x : T) :
    C.Holds (C.write m (a + xs.length * C.sizeof) x) a (xs ++ [x]) := by
  intro i y hy
  rcases Nat.lt_or_ge i xs.length with hi | hi
  · have := cell_le (C := C) hi
    rw [List.getElem?_append_left hi] at hy
    rw [← h i y hy]
    exact read_congr fun z _ _ => write_of_not_mem (by omega)
  · obtain ⟨hlt, rfl⟩ := List.getElem?_eq_some_iff.mp hy
    rw [List.length_append, List.length_singleton] at hlt
    obtain rfl : i = xs.length := by omega
    rw [List.getElem_concat_length rfl, read_write]

theorem Holds.set (h : C.Holds m a xs) (hi : i < xs.length) (x : T) :
    C.Holds (C.write m (a + i * C.sizeof) x) a (xs.set i x) := by
  intro j y hy
  rcases Nat.lt_trichotomy j i with hj | rfl | hj
  · have := cell_le (C := C) hj
    rw [List.getElem?_set_ne (by omega)] at hy
    rw [← h j y hy]
    exact read_congr fun z _ _ => write_of_not_mem (by omega)
  · rw [List.getElem?_set_self hi] at hy
    rw [read_write, Option.some.inj hy]
  · have := cell_le (C := C) hj
    rw [List.getElem?_set_ne (by omega)] at hy
    rw [← h j y hy]
    exact read_congr fun z _ _ => write_of_not_mem (by omega)

theorem Holds.copy (h : C.Holds m s xs) (hds : d ≤ s ∨ s + xs.length * C.sizeof ≤ d) :
    C.Holds (C.copy m d s xs.length) d xs := by
  intro i x hx
  rw [read_copy hds (List.getElem?_eq_some_iff.mp hx).1, h i x hx]

/-- The elements behind one of them moved down; so is what is behind the last. -/
theorem Holds.erase (h : C.Holds m a xs) (hi : i < xs.length) :
    C.Holds (C.copy m (a + i * C.sizeof) (a + (i + 1) * C.sizeof) (xs.length - i)) a
      (xs.eraseIdx i) := by
  intro j x hx
  rw [List.getElem?_eraseIdx] at hx
  split at hx
  next hj =>
    have := cell_le (C := C) hj
    rw [← h j x hx]
    exact read_congr fun y _ _ => copy_of_not_mem (.inl (by omega))
  next hj =>
    obtain ⟨k, rfl⟩ : ∃ k, j = i + k := ⟨j - i, by omega⟩
    have hlt := (List.getElem?_eq_some_iff.mp hx).1
    have hto : a + (i + k) * C.sizeof = a + i * C.sizeof + k * C.sizeof := by
      rw [Nat.add_mul, Nat.add_assoc]
    have hof : a + (i + 1) * C.sizeof + k * C.sizeof = a + (i + k + 1) * C.sizeof := by
      rw [Nat.add_assoc, ← Nat.add_mul, Nat.add_right_comm]
    have hdown : a + i * C.sizeof ≤ a + (i + 1) * C.sizeof :=
      Nat.add_le_add_left (Nat.mul_le_mul_right _ (Nat.le_succ i)) a
    rw [hto, read_copy (.inl hdown) (by omega), hof, h _ x hx]

end Codec

end RivOS
