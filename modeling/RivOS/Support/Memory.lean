import Mathlib.Algebra.Group.Nat.Defs
import Mathlib.Logic.Function.Basic
import RivOS.Support.Bytes

/-!
# Support — Byte memory

A byte for every address, runs of bytes in it, and little-endian numbers of `k` bytes.

* `load_store`, `readLE_writeLE`: what was stored is read back.
* `store_of_not_mem`, `load_congr`: a store changes nothing outside its bytes, and a load depends
  on nothing outside its own; together a load passes over a disjoint store
  (`readLE_writeLE_disjoint`).
* `store_store`: one store behind another is one store.
* `store_load`, `store_append_load`: to store what is there already makes no difference.
-/

namespace RivOS

abbrev Mem := Nat → UInt8

variable {m m' : Mem} {k n a b v x : Nat} {bs : List UInt8}

/-- The `n` bytes at `a`. -/
def load (m : Mem) : Nat → Nat → List UInt8
  | _, 0 => []
  | a, n + 1 => m a :: load m (a + 1) n

/-- Store the bytes `bs` at `a`. -/
def store (m : Mem) : Nat → List UInt8 → Mem
  | _, [] => m
  | a, b :: bs => Function.update (store m (a + 1) bs) a b

/-- The number in the `k` bytes at `a`. -/
def readLE (m : Mem) (k a : Nat) : Nat := ofLE (load m a k)

/-- Store the low `k` bytes of `v` at `a`. -/
def writeLE (m : Mem) (k a v : Nat) : Mem := store m a (toLE k v)

theorem length_load : (load m a n).length = n := by
  induction n generalizing a with
  | zero => rfl
  | succ n ih => rw [load, List.length_cons, ih]

theorem getElem?_load {i : Nat} (hi : i < n) : (load m a n)[i]? = some (m (a + i)) := by
  induction n generalizing a i with
  | zero => cases hi
  | succ n ih =>
      cases i with
      | zero => rfl
      | succ i =>
          rw [load, List.getElem?_cons_succ, ih (Nat.lt_of_succ_lt_succ hi), Nat.add_assoc,
            Nat.add_comm 1 i]

theorem load_congr (h : ∀ x, a ≤ x → x < a + n → m' x = m x) : load m' a n = load m a n := by
  induction n generalizing a with
  | zero => rfl
  | succ n ih =>
      rw [load, load, h a (Nat.le_refl a) (by omega), ih fun x hx hx' => h x (by omega) (by omega)]

theorem store_of_not_mem (h : x < a ∨ a + bs.length ≤ x) : store m a bs x = m x := by
  induction bs generalizing a with
  | nil => rfl
  | cons b bs ih =>
      rw [List.length_cons] at h
      rw [store, Function.update_of_ne (by omega), ih (by omega)]

/-- A load reads back what was stored at its place. -/
theorem load_store : load (store m a bs) a bs.length = bs := by
  induction bs generalizing a with
  | nil => rfl
  | cons b bs ih =>
      have hframe : ∀ x, a + 1 ≤ x → x < a + 1 + bs.length →
          store m a (b :: bs) x = store m (a + 1) bs x :=
        fun x _ _ => Function.update_of_ne (by omega) ..
      have htail : load (store m a (b :: bs)) (a + 1) bs.length = bs :=
        (load_congr hframe).trans ih
      rw [List.length_cons, load, htail, store, Function.update_self]

/-- A store passes over a byte that is not its own. -/
theorem store_update (h : x < a ∨ a + bs.length ≤ x) (w : UInt8) :
    store (Function.update m x w) a bs = Function.update (store m a bs) x w := by
  induction bs generalizing a with
  | nil => rfl
  | cons b bs ih =>
      rw [List.length_cons] at h
      rw [store, store, ih (by omega), Function.update_comm (by omega)]

/-- Two stores, the second right behind the first. -/
theorem store_store {cs : List UInt8} (h : b = a + bs.length) :
    store (store m a bs) b cs = store m a (bs ++ cs) := by
  induction bs generalizing a with
  | nil =>
      rw [h]
      rfl
  | cons w bs ih =>
      rw [List.length_cons] at h
      rw [List.cons_append, store, store, store_update (by omega), ih (by omega)]

theorem load_add (n k : Nat) : load m a (n + k) = load m a n ++ load m (a + n) k := by
  induction n generalizing a with
  | zero => rw [Nat.zero_add, Nat.add_zero]; rfl
  | succ n ih =>
      rw [Nat.add_right_comm, load, load, ih, List.cons_append, Nat.add_assoc, Nat.add_comm 1 n]

/-- Bytes stored where they are already. -/
theorem store_load : store m a (load m a n) = m := by
  induction n generalizing a with
  | zero => rfl
  | succ n ih => rw [load, store, ih, Function.update_eq_self]

/-- A store that takes the bytes behind it along. -/
theorem store_append_load (k : Nat) : store m a (bs ++ load m (a + bs.length) k) = store m a bs := by
  have hrest : load m (a + bs.length) k = load (store m a bs) (a + bs.length) k :=
    load_congr fun _ hlo _ => (store_of_not_mem (.inr hlo)).symm
  rw [← store_store rfl, hrest, store_load]

theorem readLE_congr (h : ∀ x, a ≤ x → x < a + k → m' x = m x) :
    readLE m' k a = readLE m k a := by
  rw [readLE, readLE, load_congr h]

theorem writeLE_of_not_mem (h : x < a ∨ a + k ≤ x) : writeLE m k a v x = m x :=
  store_of_not_mem (by rwa [length_toLE])

theorem readLE_lt : readLE m k a < 256 ^ k := by
  have h : readLE m k a < 256 ^ (load m a k).length := ofLE_lt
  rwa [length_load] at h

theorem readLE_writeLE : readLE (writeLE m k a v) k a = v % 256 ^ k := by
  have h : load (store m a (toLE k v)) a (toLE k v).length = toLE k v := load_store
  rw [length_toLE] at h
  rw [readLE, writeLE, h, ofLE_toLE]

/-- A load passes over a store to other bytes. -/
theorem readLE_writeLE_disjoint {j : Nat} (h : b + j ≤ a ∨ a + k ≤ b) :
    readLE (writeLE m k a v) j b = readLE m j b :=
  readLE_congr fun _ _ _ => writeLE_of_not_mem (by omega)

end RivOS
