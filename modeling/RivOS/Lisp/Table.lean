import Mathlib.Algebra.Group.Nat.Defs
import RivOS.Lisp.Exec
import RivOS.Support.AssocVec
import RivOS.Support.Cells

/-!
# Lisp — The variables in memory

`vectorInit`, `vectorPushBack`, `vectorAt`, `svEq`, `createVariable`, `setVariable` and
`getVariable` (`sbinSrc/de/lisp/lisp.c`) on the bytes of the process, with the loops as they are
written.  `Lisp.createVariable` and the others of `Exec` are the same functions on lists.

The characters of a name are where its `StringView` points to, in a text that nothing here writes
to.  `mmap` maps new pages behind the heap of the process, and `munmap` does nothing
(`drivers/interrupts/sysc/handler.cpp`); a heap that has no room left is not modelled, and sizes
and indices are unbounded.

* `look_loop`, `set_loop`: what the loops come to.
* `Stores`: the table has these entries.  `Stores.createVariable`, `Stores.setVariable` and
  `Stores.getVariable` are the three calls.
-/

namespace RivOS

namespace Lisp

namespace Table

/-! ### Entries and their bytes -/

structure StringView where
  len : UInt32
  conts : UInt32
deriving DecidableEq

/-- The type, and the two words of the union: an `int` is in the first, a string has both. -/
structure Value where
  type : UInt32
  lo : UInt32
  hi : UInt32
deriving DecidableEq

structure VariableMapEntry where
  name : StringView
  val : Value
deriving DecidableEq

def word (u : UInt32) : List UInt8 := toLE 4 u.toNat

def ofWord (bs : List UInt8) : UInt32 := UInt32.ofNat (ofLE (bs.take 4))

def StringView.bytes (sv : StringView) : List UInt8 := word sv.len ++ word sv.conts

def StringView.ofBytes (bs : List UInt8) : StringView := ⟨ofWord bs, ofWord (bs.drop 4)⟩

def Value.bytes (v : Value) : List UInt8 := word v.type ++ (word v.lo ++ word v.hi)

def Value.ofBytes (bs : List UInt8) : Value :=
  ⟨ofWord bs, ofWord (bs.drop 4), ofWord (bs.drop 8)⟩

theorem length_word (u : UInt32) : (word u).length = 4 := length_toLE _ _

theorem ofWord_word (u : UInt32) (bs : List UInt8) : ofWord (word u ++ bs) = u := by
  rw [ofWord, List.take_left' (length_word u), word, ofLE_toLE_of_lt u.toNat_lt, UInt32.ofNat_toNat]

theorem drop_word (u : UInt32) (bs : List UInt8) : (word u ++ bs).drop 4 = bs :=
  List.drop_left' (length_word u)

theorem StringView.length_bytes (sv : StringView) : sv.bytes.length = 8 := by
  rw [bytes, List.length_append, length_word, length_word]

theorem Value.length_bytes (v : Value) : v.bytes.length = 12 := by
  rw [bytes, List.length_append, List.length_append, length_word, length_word, length_word]

theorem word_ofWord {bs : List UInt8} (h : 4 ≤ bs.length) : word (ofWord bs) = bs.take 4 := by
  have hlen : (bs.take 4).length = 4 := by rw [List.length_take, Nat.min_eq_left h]
  have hlt : ofLE (bs.take 4) < 256 ^ (bs.take 4).length := ofLE_lt
  rw [hlen] at hlt
  have hback : toLE (bs.take 4).length (ofLE (bs.take 4)) = bs.take 4 := toLE_ofLE
  rw [hlen] at hback
  rw [word, ofWord, UInt32.toNat_ofNat_of_lt' hlt, hback]

theorem StringView.bytes_ofBytes {bs : List UInt8} (h : bs.length = 8) :
    (ofBytes bs).bytes = bs := by
  have hdrop : (bs.drop 4).length = 4 := by rw [List.length_drop, h]
  rw [bytes, ofBytes, word_ofWord (by omega), word_ofWord (Nat.le_of_eq hdrop.symm),
    List.take_of_length_le (Nat.le_of_eq hdrop), List.take_append_drop]

theorem StringView.ofBytes_bytes (sv : StringView) : ofBytes sv.bytes = sv := by
  have hconts := ofWord_word sv.conts []
  rw [List.append_nil] at hconts
  rw [ofBytes, bytes, ofWord_word, drop_word, hconts]

theorem Value.bytes_ofBytes {bs : List UInt8} (h : bs.length = 12) : (ofBytes bs).bytes = bs := by
  have hdrop : (bs.drop 8).length = 4 := by rw [List.length_drop, h]
  have hdrop₁ : (bs.drop 4).length = 8 := by rw [List.length_drop, h]
  have hrest : (bs.drop 4).take 4 ++ bs.drop 8 = bs.drop 4 := by
    have happend := List.take_append_drop 4 (bs.drop 4)
    rwa [List.drop_drop] at happend
  rw [bytes, ofBytes, word_ofWord (by omega), word_ofWord (by omega), word_ofWord (by omega),
    List.take_of_length_le (Nat.le_of_eq hdrop), hrest, List.take_append_drop]

theorem Value.ofBytes_bytes (v : Value) : ofBytes v.bytes = v := by
  have hhi := ofWord_word v.hi []
  have hdrop : v.bytes.drop 8 = word v.hi := by
    rw [bytes, ← List.append_assoc]
    exact List.drop_left' (by rw [List.length_append, length_word, length_word])
  rw [List.append_nil] at hhi
  rw [ofBytes, hdrop, hhi, bytes, ofWord_word, drop_word, ofWord_word]

/-- The name is in the first eight bytes of an entry. -/
def entry : Codec VariableMapEntry where
  sizeof := 20
  pos := Nat.zero_lt_succ _
  encode e := e.name.bytes ++ e.val.bytes
  decode bs := ⟨.ofBytes (bs.take 8), .ofBytes (bs.drop 8)⟩
  length_encode e := by
    rw [List.length_append, StringView.length_bytes, Value.length_bytes]
  decode_encode e := by
    rw [List.take_left' (StringView.length_bytes _), List.drop_left' (StringView.length_bytes _),
      StringView.ofBytes_bytes, Value.ofBytes_bytes]

/-! ### The heap of the process -/

structure Heap where
  mem : Mem
  heapBrk : Nat

/-- The `Mmap` call: whole pages, from the end of the heap on. -/
def mmap (size : Nat) (h : Heap) : Nat × Heap :=
  (h.heapBrk, { h with heapBrk := h.heapBrk + (size + 4095) / 4096 * 4096 })

def memcpy (m : Mem) (dest src n : Nat) : Mem := store m dest (load m src n)

structure Vector where
  typesize : Nat
  capac : Nat
  arr : Nat
  size : Nat

def VEC_MIN_SIZE : Nat := 5

def vectorInit (typesize : Nat) (h : Heap) : Vector × Heap :=
  let (arr, h) := mmap (VEC_MIN_SIZE * typesize) h
  (⟨typesize, VEC_MIN_SIZE, arr, 0⟩, h)

/-- The full vector in `vectorPushBack`. -/
def grow (vec : Vector) (h : Heap) : Vector × Heap :=
  if vec.size ≥ vec.capac then
    let newCapac := vec.capac * 2
    let (newArr, h) := mmap (newCapac * vec.typesize) h
    ({ vec with arr := newArr, capac := newCapac },
      { h with mem := memcpy h.mem newArr vec.arr (vec.size * vec.typesize) })
  else (vec, h)

def vectorPushBack (vec : Vector) (elem : Nat) (h : Heap) : Vector × Heap :=
  let (vec, h) := grow vec h
  ({ vec with size := vec.size + 1 },
    { h with mem := memcpy h.mem (vec.arr + vec.size * vec.typesize) elem vec.typesize })

def vectorAt (vec : Vector) (ind : Nat) : Except Stop Nat :=
  if ind ≥ vec.size then .error (.outOfBounds ind vec.size)
  else .ok (vec.arr + ind * vec.typesize)

structure Enviroment where
  functions : Vector
  variableMap : Vector

/-- A `FunctionEntry` has 24 bytes. -/
def enviromentInit (h : Heap) : Enviroment × Heap :=
  let (functions, h) := vectorInit 24 h
  let (variableMap, h) := vectorInit entry.sizeof h
  (⟨functions, variableMap⟩, h)

/-! ### The calls -/

section Calls

variable (text : Mem) (env : Enviroment) (name : StringView)

def svEq (sv₁ sv₂ : StringView) : Bool :=
  if sv₁.len ≠ sv₂.len then false
  else (List.range sv₁.len.toNat).all fun i =>
    text (sv₁.conts.toNat + i) = text (sv₂.conts.toNat + i)

/-- `entry->name`. -/
def nameAt (m : Mem) (entry : Nat) : StringView := .ofBytes (load m entry 8)

/-- `entry->val`. -/
def valAt (m : Mem) (entry : Nat) : Value := .ofBytes (load m (entry + 8) 12)

/-- `entry->val = init`. -/
def putVal (m : Mem) (entry : Nat) (init : Value) : Mem := store m (entry + 8) init.bytes

/-- The loop of `createVariable` and `getVariable`, which leave it with the entry of the name. -/
def lookTurn (m : Mem) (i : Nat) : Except Stop (Nat ⊕ Option Nat) :=
  if i < env.variableMap.size then do
    let entry ← vectorAt env.variableMap i
    return if svEq text (nameAt m entry) name then .inr (some entry) else .inl (i + 1)
  else .ok (.inr none)

/-- The loop of `setVariable`: behind the last entry `i` is -1. -/
def setTurn (m : Mem) (i : Nat) : Except Stop (Nat ⊕ Int) :=
  if i < env.variableMap.size then do
    let entry ← vectorAt env.variableMap i
    return if svEq text name (nameAt m entry) then .inr i
      else if i = env.variableMap.size - 1 then .inr (-1)
      else .inl (i + 1)
  else .ok (.inr i)

def createVariable (init : Value) (h : Heap) : Except Stop (Enviroment × Heap) := do
  match ← loop (lookTurn text env name h.mem) .fuel (env.variableMap.size - ·) 0 with
  | some _ => return (env, h)
  | none =>
      let (mentry, h) := mmap entry.sizeof h
      let h := { h with mem := store (putVal h.mem mentry init) mentry name.bytes }
      let (variableMap, h) := vectorPushBack env.variableMap mentry h
      return ({ env with variableMap }, h)

def setVariable (init : Value) (h : Heap) : Except Stop Heap := do
  let i ← loop (setTurn text env name h.mem) .fuel (env.variableMap.size - ·) 0
  if i = -1 then .error (.hang "Undefined variable")
  else do
    let entry ← vectorAt env.variableMap i.toNat
    return { h with mem := putVal h.mem entry init }

def getVariable (h : Heap) : Except Stop Value := do
  match ← loop (lookTurn text env name h.mem) .fuel (env.variableMap.size - ·) 0 with
  | some entry => return valAt h.mem entry
  | none => .error (.hang "Undefined variable")

end Calls

/-! ### Names -/

/-- The characters a view covers. -/
def chars (text : Mem) (sv : StringView) : List UInt8 := load text sv.conts.toNat sv.len.toNat

variable {text : Mem} {env : Enviroment} {name n : StringView} {h h' : Heap} {vec : Vector}
  {xs : List VariableMapEntry} {e : VariableMapEntry} {v : Value} {a i : Nat} {m : Mem}

/-- Views are compared by their characters. -/
theorem svEq_iff : svEq text n name = true ↔ chars text n = chars text name := by
  rw [svEq]
  split
  · next hlen =>
      refine iff_of_false Bool.false_ne_true fun heq => hlen ?_
      have hlength := congrArg List.length heq
      rw [chars, chars, length_load, length_load] at hlength
      exact UInt32.toNat_inj.mp hlength
  · next hlen =>
      rw [ne_eq, not_not] at hlen
      rw [List.all_eq_true, chars, chars, ← hlen]
      constructor
      · intro hall
        refine List.ext_getElem? fun i => ?_
        rcases Nat.lt_or_ge i n.len.toNat with hi | hi
        · rw [getElem?_load hi, getElem?_load hi]
          exact congrArg some (of_decide_eq_true (hall i (List.mem_range.mpr hi)))
        · rw [List.getElem?_eq_none (by rwa [length_load]),
            List.getElem?_eq_none (by rwa [length_load])]
      · intro heq i hi
        have hget := congrArg (·[i]?) heq
        rw [getElem?_load (List.mem_range.mp hi), getElem?_load (List.mem_range.mp hi)] at hget
        exact decide_eq_true (Option.some.inj hget)

theorem svEq_eq_decide : svEq text n name = decide (chars text n = chars text name) := by
  rw [Bool.eq_iff_iff, svEq_iff, decide_eq_true_iff]

/-! ### Reading and writing entries -/

theorem entry_read (m : Mem) (a : Nat) : entry.read m a = ⟨nameAt m a, valAt m a⟩ := by
  have hlen : (load m a 8).length = 8 := length_load
  have hsplit : load m a 20 = load m a 8 ++ load m (a + 8) 12 := load_add 8 12
  change (⟨.ofBytes ((load m a 20).take 8), .ofBytes ((load m a 20).drop 8)⟩ : VariableMapEntry) = _
  rw [hsplit, List.take_left' hlen, List.drop_left' hlen]
  rfl

/-- To set the value is to write the entry with the name it has. -/
theorem putVal_eq (m : Mem) (a : Nat) (v : Value) :
    putVal m a v = entry.write m a ⟨nameAt m a, v⟩ := by
  have hbytes : (nameAt m a).bytes = load m a 8 := StringView.bytes_ofBytes length_load
  change _ = store m a ((nameAt m a).bytes ++ v.bytes)
  rw [hbytes, ← store_store (by rw [length_load]), store_load, putVal]

/-- A new entry is in place when both members are set. -/
theorem entry_read_new (m : Mem) (a : Nat) (name : StringView) (v : Value) :
    entry.read (store (putVal m a v) a name.bytes) a = ⟨name, v⟩ := by
  have hname : load (store (putVal m a v) a name.bytes) a name.bytes.length = name.bytes :=
    load_store
  have hval : load (putVal m a v) (a + 8) v.bytes.length = v.bytes := load_store
  rw [StringView.length_bytes] at hname
  rw [Value.length_bytes] at hval
  have hframe : load (store (putVal m a v) a name.bytes) (a + 8) 12 =
      load (putVal m a v) (a + 8) 12 :=
    load_congr fun x hlo _ => store_of_not_mem (.inr (by rw [StringView.length_bytes]; exact hlo))
  rw [entry_read, nameAt, valAt, hname, hframe, hval, StringView.ofBytes_bytes,
    Value.ofBytes_bytes]

theorem memcpy_of_not_mem {d src k x : Nat} (h : x < d ∨ d + k ≤ x) :
    memcpy m d src k x = m x :=
  store_of_not_mem (by rwa [length_load])

/-- A copy has the bytes of what was copied. -/
theorem load_memcpy {d src k : Nat} : load (memcpy m d src k) d k = load m src k := by
  have h : load (store m d (load m src k)) d (load m src k).length = load m src k := load_store
  rwa [length_load] at h

theorem memcpy_apply {d src k j : Nat} (h : j < k) : memcpy m d src k (d + j) = m (src + j) := by
  have hload : load (memcpy m d src k) d k = load m src k := load_memcpy
  have hget := congrArg (·[j]?) hload
  rw [getElem?_load h, getElem?_load h] at hget
  exact Option.some.inj hget

/-- An entry copied to another place. -/
theorem memcpy_entry (m : Mem) (d src : Nat) :
    memcpy m d src entry.sizeof = entry.write m d (entry.read m src) := by
  have hlen : (load m src 8).length = 8 := length_load
  have hlen₁ : (load m (src + 8) 12).length = 12 := length_load
  have hsplit : load m src 20 = load m src 8 ++ load m (src + 8) 12 := load_add 8 12
  have hname : (nameAt m src).bytes = load m src 8 := StringView.bytes_ofBytes hlen
  have hval : (valAt m src).bytes = load m (src + 8) 12 := Value.bytes_ofBytes hlen₁
  rw [entry_read]
  change store m d (load m src 20) = store m d ((nameAt m src).bytes ++ (valAt m src).bytes)
  rw [hname, hval, hsplit]

/-! ### The table -/

/-- The vector has the entries `xs`, in storage below the break. -/
structure Stores (h : Heap) (vec : Vector) (xs : List VariableMapEntry) : Prop where
  typesize : vec.typesize = entry.sizeof
  size : vec.size = xs.length
  room : vec.size ≤ vec.capac
  pos : 0 < vec.capac
  inside : vec.arr + vec.capac * entry.sizeof ≤ h.heapBrk
  elems : entry.Holds h.mem vec.arr xs

namespace Stores

theorem vectorAt_eq (hs : Stores h vec xs) (hi : i < vec.size) :
    vectorAt vec i = .ok (vec.arr + i * entry.sizeof) := by
  rw [vectorAt, if_neg (Nat.not_le.mpr hi), hs.typesize]

theorem read (hs : Stores h vec xs) (hi : xs[i]? = some e) :
    nameAt h.mem (vec.arr + i * entry.sizeof) = e.name ∧
      valAt h.mem (vec.arr + i * entry.sizeof) = e.val := by
  have hread := hs.elems i e hi
  rw [entry_read] at hread
  exact ⟨congrArg VariableMapEntry.name hread, congrArg VariableMapEntry.val hread⟩

end Stores

/-! ### The loops -/

theorem lookTurn_shrinks (m : Mem) :
    Shrinks (lookTurn text env name m) (env.variableMap.size - ·) := by
  intro i j h
  unfold lookTurn at h
  split at h
  · next hi =>
      obtain ⟨a, -, h⟩ := bind_eq_ok.mp h
      split at h
      · cases h
      · cases h
        exact Nat.sub_succ_lt_self _ _ hi
  · cases h

theorem setTurn_shrinks (m : Mem) :
    Shrinks (setTurn text env name m) (env.variableMap.size - ·) := by
  intro i j h
  unfold setTurn at h
  split at h
  · next hi =>
      obtain ⟨a, -, h⟩ := bind_eq_ok.mp h
      split at h
      · cases h
      · split at h
        · cases h
        · cases h
          exact Nat.sub_succ_lt_self _ _ hi
  · cases h

/-- The first entry of the name. -/
def first (text : Mem) (name : StringView) (xs : List VariableMapEntry) : Option Nat :=
  xs.findIdx? fun e => chars text e.name = chars text name

variable (text name) in
theorem first_drop (hi : xs[i]? = some e) : first text name (xs.drop i) =
    if chars text e.name = chars text name then some 0
    else (first text name (xs.drop (i + 1))).map (· + 1) := by
  obtain ⟨hlt, rfl⟩ := List.getElem?_eq_some_iff.mp hi
  rw [first, List.drop_eq_getElem_cons hlt, List.findIdx?_cons]
  simp only [decide_eq_true_eq]
  rfl

theorem lookTurn_eq (hs : Stores h env.variableMap xs) (hi : xs[i]? = some e) :
    lookTurn text env name h.mem i =
      .ok (if chars text e.name = chars text name
        then .inr (some (env.variableMap.arr + i * entry.sizeof)) else .inl (i + 1)) := by
  have hlt : i < env.variableMap.size := hs.size ▸ (List.getElem?_eq_some_iff.mp hi).1
  rw [lookTurn, if_pos hlt, hs.vectorAt_eq hlt, ok_bind, (hs.read hi).1, svEq_eq_decide]
  simp only [decide_eq_true_eq]
  rfl

theorem setTurn_eq (hs : Stores h env.variableMap xs) (hi : xs[i]? = some e) :
    setTurn text env name h.mem i =
      .ok (if chars text e.name = chars text name then .inr i
        else if i = xs.length - 1 then .inr (-1) else .inl (i + 1)) := by
  have hlt : i < env.variableMap.size := hs.size ▸ (List.getElem?_eq_some_iff.mp hi).1
  rw [setTurn, if_pos hlt, hs.vectorAt_eq hlt, ok_bind, (hs.read hi).1, svEq_eq_decide, hs.size]
  simp only [decide_eq_true_eq, eq_comm (a := chars text name)]
  rfl

/-- **The loop for a name** ends at its first entry from `i` on. -/
theorem look_loop (hs : Stores h env.variableMap xs) (i : Nat) :
    loop (lookTurn text env name h.mem) .fuel (env.variableMap.size - ·) i =
      .ok ((first text name (xs.drop i)).map fun j =>
        env.variableMap.arr + (i + j) * entry.sizeof) := by
  induction hn : xs.length - i generalizing i with
  | zero =>
      have hend : lookTurn text env name h.mem i = .ok (.inr none) :=
        if_neg (by rw [hs.size]; omega)
      rw [loop_leave hend, List.drop_eq_nil_of_le (by omega)]
      rfl
  | succ n ih =>
      have hi := List.getElem?_eq_getElem (l := xs) (i := i) (by omega)
      rw [loop_eq (lookTurn_shrinks _), lookTurn_eq hs hi, first_drop text name hi, ok_bind]
      split
      · rfl
      · rw [Option.map_map]
        refine (ih (i + 1) (by omega)).trans (congrArg _ (congrArg₂ _ (funext fun j => ?_) rfl))
        rw [Function.comp, Nat.add_right_comm, Nat.add_assoc]

variable (text name) in
/-- **The loop of `setVariable`** ends at the first entry from `i` on, or with -1. -/
theorem set_loop (hs : Stores h env.variableMap xs) (hi : i < xs.length) :
    loop (setTurn text env name h.mem) .fuel (env.variableMap.size - ·) i =
      .ok (match first text name (xs.drop i) with
        | some j => ((i + j : Nat) : Int)
        | none => -1) := by
  induction hn : xs.length - i generalizing i with
  | zero => omega
  | succ n ih =>
      have he := List.getElem?_eq_getElem hi
      rw [loop_eq (setTurn_shrinks _), setTurn_eq hs he, first_drop text name he, ok_bind]
      split
      · rfl
      split
      · -- the last entry: there is no other one behind it
        rw [List.drop_eq_nil_of_le (i := i + 1) (by omega)]
        rfl
      · refine (ih (by omega) (by omega)).trans (congrArg _ ?_)
        rcases first text name (xs.drop (i + 1)) with _ | j
        · rfl
        · change ((i + 1 + j : Nat) : Int) = ((i + (j + 1) : Nat) : Int)
          rw [Nat.add_right_comm, Nat.add_assoc]

/-! ### A new entry -/

theorem load_memcpy_at {d src k j n : Nat} (h : j + n ≤ k) :
    load (memcpy m d src k) (d + j) n = load m (src + j) n := by
  refine List.ext_getElem? fun i => ?_
  rcases Nat.lt_or_ge i n with hi | hi
  · rw [getElem?_load hi, getElem?_load hi, Nat.add_assoc, Nat.add_assoc,
      memcpy_apply (by omega)]
  · rw [List.getElem?_eq_none (by rwa [length_load]), List.getElem?_eq_none (by rwa [length_load])]

/-- An array copied to another place as bytes. -/
theorem holds_memcpy {d : Nat} (hs : entry.Holds m a xs) :
    entry.Holds (memcpy m d a (xs.length * entry.sizeof)) d xs := by
  intro i x hx
  have hle := Codec.cell_le (C := entry) (List.getElem?_eq_some_iff.mp hx).1
  rw [← hs i x hx]
  exact congrArg entry.decode (load_memcpy_at hle)

/-- What the code does behind the break, and to new pages, leaves the table as it is. -/
theorem Stores.mono (hs : Stores h vec xs) (hbrk : h.heapBrk ≤ h'.heapBrk)
    (hm : ∀ x < h.heapBrk, h'.mem x = h.mem x) : Stores h' vec xs where
  __ := hs
  inside := Nat.le_trans hs.inside hbrk
  elems := by
    have hle : xs.length * entry.sizeof ≤ vec.capac * entry.sizeof :=
      Nat.mul_le_mul_right _ (hs.size ▸ hs.room)
    have hinside := hs.inside
    exact hs.elems.congr fun y _ hy => hm y (by omega)

/-- New storage, where the old one is full. -/
theorem Stores.grow (hs : Stores h vec xs) :
    Stores (grow vec h).2 (grow vec h).1 xs ∧ xs.length < (grow vec h).1.capac ∧
      h.heapBrk ≤ (grow vec h).2.heapBrk ∧ ∀ x < h.heapBrk, (grow vec h).2.mem x = h.mem x := by
  have hpos := hs.pos
  have hroom := hs.room
  by_cases hfull : vec.size ≥ vec.capac
  · rw [Table.grow, if_pos hfull]
    have hcopy := holds_memcpy (d := h.heapBrk) hs.elems
    rw [← hs.size, ← hs.typesize] at hcopy
    refine ⟨⟨hs.typesize, hs.size, ?_, ?_, ?_, hcopy⟩, ?_, Nat.le_add_right _ _,
      fun x hx => memcpy_of_not_mem (.inl hx)⟩
    · change vec.size ≤ vec.capac * 2
      omega
    · change 0 < vec.capac * 2
      omega
    · change h.heapBrk + vec.capac * 2 * entry.sizeof ≤
        h.heapBrk + (vec.capac * 2 * vec.typesize + 4095) / 4096 * 4096
      rw [hs.typesize]
      omega
    · change xs.length < vec.capac * 2
      rw [← hs.size]
      omega
  · rw [Table.grow, if_neg hfull]
    exact ⟨hs, hs.size ▸ Nat.not_le.mp hfull, Nat.le_refl _, fun x _ => rfl⟩

/-- **An entry is put behind the others**, from a place below the break. -/
theorem Stores.vectorPushBack (hs : Stores h vec xs) (ha : a + entry.sizeof ≤ h.heapBrk) :
    Stores (vectorPushBack vec a h).2 (vectorPushBack vec a h).1 (xs ++ [entry.read h.mem a]) := by
  obtain ⟨hg, hcap, hbrk, hm⟩ := hs.grow
  have hread : entry.read (Table.grow vec h).2.mem a = entry.read h.mem a :=
    Codec.read_congr fun x _ hx => hm x (by omega)
  have hmem : (Table.vectorPushBack vec a h).2.mem = entry.write (Table.grow vec h).2.mem
      ((Table.grow vec h).1.arr + xs.length * entry.sizeof) (entry.read h.mem a) := by
    rw [← hread, ← memcpy_entry, ← hg.size, ← hg.typesize]
    rfl
  refine ⟨hg.typesize, ?_, ?_, hg.pos, hg.inside, ?_⟩
  · rw [List.length_append, List.length_singleton, ← hg.size]
    rfl
  · change (Table.grow vec h).1.size + 1 ≤ (Table.grow vec h).1.capac
    rw [hg.size]
    exact hcap
  · rw [hmem]
    exact hg.elems.concat _

/-! ### The three calls -/

/-- The table as a map from the characters of the names. -/
def pairs (text : Mem) (xs : List VariableMapEntry) : List (List UInt8 × Value) :=
  xs.map fun e => (chars text e.name, e.val)

theorem first_eq_none (h : first text name xs = none) :
    chars text name ∉ AssocVec.keys (pairs text xs) := by
  intro hmem
  obtain ⟨e, he, hname⟩ := List.mem_map.mp hmem
  obtain ⟨x, hx, rfl⟩ := List.mem_map.mp he
  exact of_decide_eq_false (List.findIdx?_eq_none_iff.mp h x hx) hname

/-- The first entry of a name is the one that is found for it, and a new value for it is found
then. -/
theorem first_eq_some (h : first text name xs = some i) :
    ∃ e, xs[i]? = some e ∧ chars text e.name = chars text name ∧
      AssocVec.find (pairs text xs) (chars text name) = some e.val ∧
      AssocVec.keys (pairs text (xs.set i { e with val := v })) =
        AssocVec.keys (pairs text xs) ∧
      ∀ k, AssocVec.find (pairs text (xs.set i { e with val := v })) k =
        if k = chars text name then some v else AssocVec.find (pairs text xs) k := by
  induction xs generalizing i with
  | nil => cases h
  | cons x xs ih =>
      have hzero : (x :: xs)[0]? = some x := rfl
      have hdrop := first_drop text name hzero
      rw [List.drop_zero, h, List.drop_succ_cons, List.drop_zero] at hdrop
      by_cases heq : chars text x.name = chars text name
      · rw [if_pos heq] at hdrop
        obtain rfl := Option.some.inj hdrop
        refine ⟨x, rfl, heq, by simp [AssocVec.find, pairs, heq], rfl, fun k => ?_⟩
        by_cases hk : k = chars text name <;> simp [AssocVec.find, pairs, heq, hk, eq_comm]
      · rw [if_neg heq] at hdrop
        obtain ⟨j, hj, rfl⟩ := Option.map_eq_some_iff.mp hdrop.symm
        obtain ⟨e, he, hname, hfind, hkeys, hset⟩ := ih hj
        refine ⟨e, he, hname, ?_, ?_, fun k => ?_⟩
        · simpa [AssocVec.find, pairs, heq] using hfind
        · simpa [AssocVec.keys, pairs] using hkeys
        · have := hset k
          by_cases hk : k = chars text x.name
          · subst hk
            simp [AssocVec.find, pairs, heq]
          · simpa [AssocVec.find, pairs, Ne.symm hk] using this

/-- The value of a variable, or the end of the program where there is none. -/
def found : Option Value → Except Stop Value
  | some v => .ok v
  | none => .error (.hang "Undefined variable")

namespace Stores

variable {init : Value}

theorem look (hs : Stores h env.variableMap xs) (name : StringView) :
    loop (lookTurn text env name h.mem) .fuel (env.variableMap.size - ·) 0 =
      .ok ((first text name xs).map fun j => env.variableMap.arr + j * entry.sizeof) := by
  rw [look_loop hs 0, List.drop_zero]
  simp only [Nat.zero_add]

theorem getVariable (hs : Stores h env.variableMap xs) (name : StringView) :
    getVariable text env name h = found (AssocVec.find (pairs text xs) (chars text name)) := by
  rw [Table.getVariable, hs.look name, ok_bind]
  cases hf : first text name xs with
  | none => rw [AssocVec.find_eq_none_iff.mpr (first_eq_none hf)]; rfl
  | some j =>
      obtain ⟨e, he, -, hfind, -⟩ := first_eq_some (v := ⟨0, 0, 0⟩) hf
      rw [hfind]
      exact congrArg Except.ok (hs.read he).2

/-- A variable that is there stays as it is. -/
theorem createVariable_of_mem (hs : Stores h env.variableMap xs)
    (hmem : chars text name ∈ AssocVec.keys (pairs text xs)) :
    createVariable text env name init h = .ok (env, h) := by
  rw [createVariable, hs.look name, ok_bind]
  cases hf : first text name xs with
  | none => exact absurd hmem (first_eq_none hf)
  | some j => rfl

variable (init) in
theorem createVariable (hs : Stores h env.variableMap xs)
    (hnew : chars text name ∉ AssocVec.keys (pairs text xs)) :
    ∃ env' h', createVariable text env name init h = .ok (env', h') ∧
      Stores h' env'.variableMap (xs ++ [⟨name, init⟩]) ∧ env'.variableMap.capac =
        if xs.length < env.variableMap.capac then env.variableMap.capac
        else env.variableMap.capac * 2 := by
  cases hf : first text name xs with
  | some j =>
      obtain ⟨e, -, -, hfind, -⟩ := first_eq_some (v := init) hf
      exact absurd (AssocVec.mem_keys_of_find hfind) hnew
  | none =>
      let made : Heap := { (mmap entry.sizeof h).2 with
        mem := store (putVal h.mem h.heapBrk init) h.heapBrk name.bytes }
      have hbrk : h.heapBrk + entry.sizeof ≤ made.heapBrk :=
        Nat.add_le_add_left (by decide) h.heapBrk
      have hframe : ∀ x < h.heapBrk, made.mem x = h.mem x := fun x hx =>
        (store_of_not_mem (.inl hx)).trans (store_of_not_mem (.inl (Nat.lt_add_right 8 hx)))
      have hmade : Stores made env.variableMap xs := hs.mono (Nat.le_of_add_right_le hbrk) hframe
      have hpush := hmade.vectorPushBack hbrk
      rw [entry_read_new] at hpush
      refine ⟨{ env with
        variableMap := (Table.vectorPushBack env.variableMap h.heapBrk made).1 }, _, ?_, hpush, ?_⟩
      · rw [Table.createVariable, hs.look name, ok_bind, hf]
        rfl
      · change (Table.grow env.variableMap made).1.capac = _
        rw [Table.grow, hs.size]
        split
        · rw [if_neg (by omega)]
        · rw [if_pos (by omega)]

variable (init) in
theorem setVariable (hs : Stores h env.variableMap xs) (hi : first text name xs = some i) :
    ∃ e h', xs[i]? = some e ∧ chars text e.name = chars text name ∧
      setVariable text env name init h = .ok h' ∧
      Stores h' env.variableMap (xs.set i { e with val := init }) := by
  obtain ⟨e, he, hname, -⟩ := first_eq_some (v := init) hi
  have hlt : i < xs.length := (List.getElem?_eq_some_iff.mp he).1
  have hloop := set_loop text name hs (Nat.zero_lt_of_lt hlt)
  rw [List.drop_zero, hi] at hloop
  dsimp only at hloop
  rw [Nat.zero_add] at hloop
  have hput : putVal h.mem (env.variableMap.arr + i * entry.sizeof) init =
      entry.write h.mem (env.variableMap.arr + i * entry.sizeof) { e with val := init } := by
    rw [putVal_eq, (hs.read he).1]
  refine ⟨e, { h with mem := putVal h.mem (env.variableMap.arr + i * entry.sizeof) init }, he,
    hname, ?_, ?_⟩
  · rw [Table.setVariable, hloop, ok_bind, if_neg (by omega), Int.toNat_natCast,
      hs.vectorAt_eq (hs.size ▸ hlt)]
    rfl
  · refine { hs with size := ?_, elems := ?_ }
    · rw [List.length_set, hs.size]
    · rw [hput]
      exact hs.elems.set hlt _

end Stores

theorem stores_init (h : Heap) :
    Stores (enviromentInit h).2 (enviromentInit h).1.variableMap [] :=
  ⟨rfl, rfl, Nat.zero_le _, Nat.zero_lt_succ 4,
    Nat.add_le_add_left (show 5 * 20 ≤ 4096 by decide) _, Codec.holds_nil _ _⟩

end Table

end Lisp

end RivOS
