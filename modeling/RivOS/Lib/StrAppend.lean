import RivOS.Lib.Numbers
import RivOS.Lib.CString
import RivOS.Mem.Buffers

/-!
# Lib — Appending

The constructors of `Str` (`lib/str.hpp`), its `operator+=` and its `fromi` and `fromu`, with the
buffer as the bytes in hand and every store to it recorded.

What is appended lies elsewhere and is given by its characters, or it is a part of the string itself
and is given by its place.  `operator+=(const char*)` of such a part runs ahead of itself and finds
no NUL, or reads the buffer after it was freed; `operator+=(StringView)` reads it character by
character, from a buffer that is freed as soon as the string grows.

* `Concatenates`: the calls return, the string reads as what was appended, and every byte written is
  in its buffer.
* `ProperAll`: every request for a buffer is met, and nothing is read from a buffer that has been
  freed or is being written.
-/

namespace RivOS.Lib.Append

/-- A `Str` with its buffer, the heap, and the bytes that were written, each time with the capacity
then. -/
structure State where
  cStr : Buffer
  len : Nat
  capacity : Nat
  heap : Mem
  written : List Access

def MINIMUM_STR_SIZE : Nat := 5

/-- The string in a buffer, if it has a NUL. -/
def textOf (bytes : List UInt8) : Option (List UInt8) :=
  if 0 ∈ bytes then some (bytes.takeWhile (· ≠ 0)) else none

/-- `bs` stored from `off` on. -/
def stored (bytes : List UInt8) (off : Nat) (bs : List UInt8) : List UInt8 :=
  bytes.take off ++ bs ++ bytes.drop (off + bs.length)

/-- A store to the buffer. -/
def State.write (t : State) (off : Nat) (bs : List UInt8) : State :=
  { t with
    cStr := { t.cStr with bytes := stored t.cStr.bytes off bs }
    written := t.written ++ [⟨t.capacity, off, bs.length⟩] }

section Calls

variable (r : HeapRegion)

/-- A buffer that a constructor stores `bytes` in, without a test. -/
def onHeap (capacity : Nat) (bytes : List UInt8) (len : Nat) (m : Mem) : Except Halt State :=
  match (KernelAllocator.buffers r).alloc capacity m with
  | (none, _) => .error .undefined
  | (some cStr, m) => .ok (State.write ⟨cStr, len, capacity, m, []⟩ 0 bytes)

def allocSize (s : CStr) : Nat :=
  if strlen s ≥ MINIMUM_STR_SIZE then (strlen s + MINIMUM_STR_SIZE) % 2 ^ 32 else MINIMUM_STR_SIZE

/-- `Str()` and `Str(const char*)`. -/
def construct (m : Mem) : Option CStr → Except Halt State
  | none => onHeap r MINIMUM_STR_SIZE (List.replicate 5 0) 0 m
  | some s => onHeap r (allocSize s) (s.chars ++ [0]) (strlen s % 2 ^ 32) m

/-- A buffer of twice the size, with the text in it.  Whether there is one is not tested. -/
def double (t : State) : Except Halt State :=
  match (KernelAllocator.buffers r).alloc (t.capacity * 2 % 2 ^ 32) t.heap with
  | (none, _) => .error .undefined
  | (some newArr, m) => do
      let s ← orHalt .undefined (textOf t.cStr.bytes)
      let t' : State := { t with
        cStr := newArr
        capacity := t.capacity * 2 % 2 ^ 32
        heap := (KernelAllocator.buffers r).free t.cStr m }
      return t'.write 0 (s ++ [0])

/-- A turn of the loop that makes room for `n` more characters. -/
def growTurn (n : Nat) (t : State) : Except Halt (State ⊕ State) :=
  if (t.len + n) % 2 ^ 32 ≥ t.capacity then (double r t).map .inl else .ok (.inr t)

/-- `operator+=(const char*)` of a string that lies elsewhere.  A 32-bit number can be doubled 32
times. -/
def append (s : List UInt8) (t : State) : Except Halt State := do
  let t ← turns (growTurn r s.length) .undefined 33 t
  let x ← orHalt .undefined (textOf t.cStr.bytes)
  let t := { t with len := (t.len + s.length) % 2 ^ 32 }
  return t.write x.length (s ++ [0])

/-- `operator+=(const char*)` of the string's own text from `k` on. -/
def appendSelf (k : Nat) (t : State) : Except Halt State := do
  match ← orHalt .undefined (textOf (t.cStr.bytes.drop k)) with
  | [] => append r [] t
  | _ => .error .undefined

/-- `operator+=(char)`. -/
def appendChar (t : State) (c : UInt8) : Except Halt State := do
  let x ← orHalt .undefined (textOf t.cStr.bytes)
  let t := { t with len := (t.len + 1) % 2 ^ 32 }
  let t ← if t.len ≥ t.capacity then double r t else .ok t
  return t.write x.length [c, 0]

/-- `operator+=(StringView)` of characters that lie elsewhere. -/
def appendView (sv : List UInt8) (t : State) : Except Halt State := sv.foldlM (appendChar r) t

/-- `operator+=(StringView)` of `n` characters in the buffer at `raw`, from `k` on. -/
def appendSelfView (raw k : Nat) : Nat → State → Except Halt State
  | 0, t => .ok t
  | n + 1, t => do
      if t.cStr.addr ≠ raw then .error .undefined
      let c ← orHalt .undefined t.cStr.bytes[k]?
      let t ← appendChar r t c
      appendSelfView raw (k + 1) n t

/-- The first two lines of `fromi` and `fromu`. -/
def reset (t : State) : State := { t with len := 0 }.write 0 [0]

def fromi (n : Word) (t : State) : Except Halt State := do appendView r (← fromiText n) (reset t)

def fromu (n : Word) (t : State) : Except Halt State := do appendView r (← fromuText n) (reset t)

end Calls

/-- The calls.  A part of the string itself begins `back` characters before its end. -/
inductive Op where
  | text (s : CStr)
  | self (back : Nat)
  | char (c : UInt8) (h : c ≠ 0)
  | view (s : CStr)
  | selfView (back n : Nat)
  | fromi (n : Word)
  | fromu (n : Word)

def call (r : HeapRegion) (t : State) : Op → Except Halt State
  | .text s => append r s.chars t
  | .self back => appendSelf r (t.len - back) t
  | .char c _ => appendChar r t c
  | .view s => appendView r s.chars t
  | .selfView back n => appendSelfView r t.cStr.addr (t.len - back) (min n (min back t.len)) t
  | .fromi n => fromi r n t
  | .fromu n => fromu r n t

/-- A constructor, and calls one after the other. -/
def run (r : HeapRegion) (m : Mem) (s : Option CStr) (ops : List Op) : Except Halt State := do
  ops.foldlM (call r) (← construct r m s)

/-! ### What was appended -/

/-- What `fromi` leaves of a number: of the smallest one only the sign. -/
def fromiOut (n : Word) : List UInt8 :=
  if n = BitVec.intMin 32 then [45]
  else if n.toInt < 0 then 45 :: decimal n.toInt.natAbs
  else decimal n.toInt.natAbs

/-- The text after a call. -/
def textStep (x : List UInt8) : Op → List UInt8
  | .text s => x ++ s.chars
  | .self back => x ++ x.drop (x.length - back)
  | .char c _ => x ++ [c]
  | .view s => x ++ s.chars
  | .selfView back n => x ++ (x.drop (x.length - back)).take n
  | .fromi n => fromiOut n
  | .fromu n => decimal n.toNat

def texts (s : Option CStr) (ops : List Op) : List UInt8 :=
  ops.foldl textStep (s.elim [] (·.chars))

/-- Every byte is written in its buffer, and the buffer is no larger than the memory. -/
def Within (as : List Access) : Prop := ∀ a ∈ as, a.Inside ∧ a.size ≤ 2 ^ 27

/-- **Appending is concatenation**, and stays in the buffer. -/
def Concatenates (r : HeapRegion) (m : Mem) (s : Option CStr) (ops : List Op) : Prop :=
  ∃ t, run r m s ops = .ok t ∧ textOf t.cStr.bytes = some (texts s ops) ∧
    t.len = (texts s ops).length ∧ t.len < t.capacity ∧ t.cStr.bytes.length = t.capacity ∧
    Within t.written

/-! ### What the calls ask for -/

section Rooms

variable (r : HeapRegion)

/-- The request of a constructor is met. -/
def Built (m : Mem) : Option CStr → Prop
  | none => (KernelAllocator.buffers r).HasRoom MINIMUM_STR_SIZE m
  | some s => strlen s + MINIMUM_STR_SIZE ≤ 2 ^ 27 ∧
      (KernelAllocator.buffers r).HasRoom (allocSize s) m

/-- If `n` more characters do not fit, there is a buffer of twice the size. -/
def RoomFor (n : Nat) (t : State) : Prop :=
  t.capacity ≤ t.len + n → (KernelAllocator.buffers r).HasRoom (t.capacity * 2) t.heap

/-- So it is in every turn of the loop. -/
def RoomForText (n : Nat) (t : State) : Prop :=
  ∀ u, Reaches (growTurn r n) t u → RoomFor r n u

/-- So it is for each of the characters. -/
def RoomForEach : List UInt8 → State → Prop
  | [], _ => True
  | c :: cs, t => RoomFor r 1 t ∧ ∀ u, appendChar r t c = .ok u → RoomForEach cs u

/-- The requests of a call are met, and it reads nothing that it has freed or written. -/
def Proper (t : State) : Op → Prop
  | .text s => t.len + strlen s < 2 ^ 32 ∧ RoomForText r (strlen s) t
  | .self back => min back t.len = 0
  | .char _ _ => RoomFor r 1 t
  | .view s => RoomForEach r s.chars t
  | .selfView back n => t.len + (min n (min back t.len) - 1) < t.capacity ∧
      RoomForEach r ((t.cStr.bytes.drop (t.len - back)).take (min n (min back t.len))) t
  | .fromi n => RoomForEach r (fromiOut n) (reset t)
  | .fromu n => RoomForEach r (decimal n.toNat) (reset t)

def ProperAll : List Op → State → Prop
  | [], _ => True
  | op :: ops, t => Proper r t op ∧ ∀ u, call r t op = .ok u → ProperAll ops u

end Rooms

end RivOS.Lib.Append
