import RivOS.Lisp.Table

/-!
# Lisp — The environment as a map

What the variables in memory (`Table`) stand for: the lists of `Exec`, and, over any sequence of
calls, the values that were created and set last.

* `Represents`: the variables of `Exec` are those of the table, call by call.
* `valueOf`: read off the calls, the value of a name.
* `Holds.call`: one call more, whether or not it moves the table to new storage.
* `enviroment_laws`: what any sequence of calls leaves.
-/

namespace RivOS

namespace Lisp

namespace Table

variable {text : Mem} {env : Enviroment} {name n : StringView} {h h' : Heap} {vec : Vector}
  {xs : List VariableMapEntry}

/-! ### The table as the interpreter sees it -/

/-- The value that is stored. -/
def Value.view (text : Mem) (v : Value) : Lisp.Value :=
  if v.type = 1 then .int (BitVec.ofNat 32 v.lo.toNat)
  else if v.type = 2 then .string (chars text ⟨v.lo, v.hi⟩)
  else .none

def VariableMapEntry.view (text : Mem) (e : VariableMapEntry) : Lisp.VariableMapEntry :=
  ⟨chars text e.name, e.val.view text⟩

/-- The variables of `scope` are those of the table, in storage of the same capacity. -/
structure Represents (text : Mem) (env : Enviroment) (h : Heap) (xs : List VariableMapEntry)
    (scope : Lisp.Enviroment) : Prop where
  stores : Stores h env.variableMap xs
  elems : scope.variableMap.elems = xs.map (VariableMapEntry.view text)
  capac : scope.variableMap.capac = env.variableMap.capac

namespace Represents

variable {scope : Lisp.Enviroment} {init : Value}

theorem start (text : Mem) (h : Heap) :
    Represents text (enviromentInit h).1 (enviromentInit h).2 [] Lisp.enviromentInit :=
  ⟨stores_init h, rfl, rfl⟩

theorem any_iff (hr : Represents text env h xs scope) :
    (scope.variableMap.elems.any fun e => Lisp.svEq e.name (chars text name)) = true ↔
      chars text name ∈ AssocVec.keys (pairs text xs) := by
  rw [hr.elems, List.any_map, List.any_eq_true, AssocVec.keys, pairs, List.map_map, List.mem_map]
  exact exists_congr fun e => and_congr_right fun _ => decide_eq_true_iff

theorem findIdx_eq (hr : Represents text env h xs scope) :
    (scope.variableMap.elems.findIdx? fun e => Lisp.svEq (chars text name) e.name) =
      first text name xs := by
  rw [hr.elems, List.findIdx?_map, first]
  congr 1
  funext e
  exact decide_eq_decide.mpr eq_comm

theorem getVariable (hr : Represents text env h xs scope) :
    (Table.getVariable text env name h).map (Value.view text) =
      Lisp.getVariable scope (chars text name) := by
  have hfind : (scope.variableMap.elems.find? fun e => Lisp.svEq e.name (chars text name)).map
      Lisp.VariableMapEntry.val =
      (AssocVec.find (pairs text xs) (chars text name)).map (Value.view text) := by
    rw [hr.elems, List.find?_map, AssocVec.find, pairs, List.find?_map, Option.map_map,
      Option.map_map, Option.map_map]
    rfl
  rw [hr.stores.getVariable name, Lisp.getVariable]
  cases hf : AssocVec.find (pairs text xs) (chars text name) with
  | none =>
      rw [hf] at hfind
      rw [Option.map_eq_none_iff.mp hfind]
      rfl
  | some v =>
      rw [hf] at hfind
      obtain ⟨e, he, hv⟩ := Option.map_eq_some_iff.mp hfind
      rw [he]
      exact congrArg Except.ok hv.symm

theorem createVariable (hr : Represents text env h xs scope) :
    ∃ env' h' ys, Table.createVariable text env name init h = .ok (env', h') ∧
      Represents text env' h' ys
        (Lisp.createVariable scope (chars text name) (init.view text)) := by
  rw [Lisp.createVariable]
  split
  · next hmem =>
      exact ⟨env, h, xs, hr.stores.createVariable_of_mem (hr.any_iff.mp hmem), hr⟩
  · next hmem =>
      obtain ⟨env', h', hc, hs, hcapac⟩ :=
        hr.stores.createVariable init fun h => hmem (hr.any_iff.mpr h)
      have hlen : scope.variableMap.size = xs.length := by
        rw [Lisp.Vector.size, hr.elems, List.length_map]
      refine ⟨env', h', _, hc, hs, ?_, ?_⟩
      · rw [Lisp.Vector.pushBack_elems, hr.elems, List.map_append]
        rfl
      · change scope.variableMap.grow.capac = _
        rw [Lisp.Vector.grow_capac, hcapac, hlen, hr.capac]

theorem setVariable (hr : Represents text env h xs scope) {i : Nat}
    (hi : first text name xs = some i) :
    ∃ h' ys, Table.setVariable text env name init h = .ok h' ∧
      ∃ scope', Lisp.setVariable scope (chars text name) (init.view text) = .ok scope' ∧
        Represents text env h' ys scope' := by
  obtain ⟨e, h', he, hname, hc, hs⟩ := hr.stores.setVariable init hi
  refine ⟨h', _, hc, { scope with
    variableMap := scope.variableMap.set i ⟨chars text name, init.view text⟩ }, ?_, hs, ?_,
    hr.capac⟩
  · rw [Lisp.setVariable, hr.findIdx_eq, hi]
  · rw [Lisp.Vector.set_elems, hr.elems, List.map_set, VariableMapEntry.view, hname]

/-- A name that is not there stops the interpreter. -/
theorem setVariable_of_none (hr : Represents text env h xs scope)
    (hnone : first text name xs = none) :
    ∃ e, Table.setVariable text env name init h = .error e ∧
      Lisp.setVariable scope (chars text name) (init.view text) = .error e := by
  have hlen : scope.variableMap.size = xs.length := by
    rw [Lisp.Vector.size, hr.elems, List.length_map]
  rw [Lisp.setVariable, hr.findIdx_eq, hnone, hlen, Table.setVariable]
  rcases xs with _ | ⟨x, xs⟩
  · refine ⟨.outOfBounds 0 0, ?_, rfl⟩
    have hsize : env.variableMap.size = 0 := hr.stores.size
    have hend : setTurn text env name h.mem 0 = .ok (.inr 0) := if_neg (by omega)
    rw [loop_leave hend, ok_bind, if_neg (by decide), Int.toNat_zero, vectorAt, hsize]
    rfl
  · refine ⟨.hang "Undefined variable", ?_, rfl⟩
    have hloop := set_loop text name hr.stores (Nat.zero_lt_succ xs.length)
    rw [List.drop_zero, hnone] at hloop
    rw [hloop]
    rfl

end Represents

/-! ### Sequences of calls -/

inductive Call where
  | create (name : StringView) (init : Value)
  | set (name : StringView) (init : Value)

def Call.view : Call → StringView
  | .create sv _ | .set sv _ => sv

def call (text : Mem) (s : Enviroment × Heap) : Call → Except Stop (Enviroment × Heap)
  | .create name init => createVariable text s.1 name init s.2
  | .set name init => (setVariable text s.1 name init s.2).map fun h => (s.1, h)

def callAll (text : Mem) (calls : List Call) (s : Enviroment × Heap) :
    Except Stop (Enviroment × Heap) := calls.foldlM (call text) s

/-- The values that `createVariable` was called with for a name. -/
def creates (text : Mem) (k : List UInt8) (calls : List Call) : List Value :=
  calls.filterMap fun
    | .create name init => if chars text name = k then some init else none
    | .set _ _ => none

/-- The values that `setVariable` was called with for a name. -/
def sets (text : Mem) (k : List UInt8) (calls : List Call) : List Value :=
  calls.filterMap fun
    | .create _ _ => none
    | .set name init => if chars text name = k then some init else none

/-- The value last set, or else the one first created. -/
def valueOf (text : Mem) (k : List UInt8) (calls : List Call) : Option Value :=
  (sets text k calls).getLast?.or (creates text k calls).head?

/-- Only names that were created before are set. -/
def SetsCreated (text : Mem) (calls : List Call) : Prop :=
  ∀ pre name init post, calls = pre ++ .set name init :: post →
    creates text (chars text name) pre ≠ []

variable {calls : List Call} {c : Call} {k : List UInt8} {s s' : Enviroment × Heap}

theorem SetsCreated.prefix (h : SetsCreated text (calls ++ [c])) : SetsCreated text calls :=
  fun pre name init post heq => h pre name init (post ++ [c]) (by rw [heq]; simp)

theorem SetsCreated.last {init : Value} (h : SetsCreated text (calls ++ [.set name init])) :
    creates text (chars text name) calls ≠ [] := h calls name init [] rfl

/-- A name is set only where it was created. -/
theorem valueOf_eq_none (h : SetsCreated text calls) :
    valueOf text k calls = none ↔ creates text k calls = [] := by
  rw [valueOf, Option.or_eq_none_iff, List.head?_eq_none_iff, List.getLast?_eq_none_iff]
  refine and_iff_right_of_imp fun hnone => ?_
  refine List.filterMap_eq_nil_iff.mpr fun c hc => ?_
  rcases c with ⟨name, init⟩ | ⟨name, init⟩
  · rfl
  · refine if_neg fun heq => ?_
    obtain ⟨pre, post, rfl⟩ := List.append_of_mem hc
    refine h pre name init post rfl ?_
    rw [creates, List.filterMap_append, List.append_eq_nil_iff] at hnone
    exact heq ▸ hnone.1

theorem creates_append (l : List Call) :
    creates text k (calls ++ l) = creates text k calls ++ creates text k l :=
  List.filterMap_append

theorem sets_append (l : List Call) :
    sets text k (calls ++ l) = sets text k calls ++ sets text k l :=
  List.filterMap_append

@[simp] theorem creates_create {init : Value} : creates text k [.create name init] =
    if chars text name = k then [init] else [] := by
  by_cases h : chars text name = k <;> simp [creates, h]

@[simp] theorem creates_set {init : Value} : creates text k [.set name init] = [] := rfl

@[simp] theorem sets_create {init : Value} : sets text k [.create name init] = [] := rfl

@[simp] theorem sets_set {init : Value} : sets text k [.set name init] =
    if chars text name = k then [init] else [] := by
  by_cases h : chars text name = k <;> simp [sets, h]

/-- A call does not change the value of another name. -/
theorem valueOf_of_ne (h : chars text c.view ≠ k) :
    valueOf text k (calls ++ [c]) = valueOf text k calls := by
  rcases c with ⟨sv, init⟩ | ⟨sv, init⟩
  · have hne : chars text sv ≠ k := h
    simp [valueOf, creates_append, sets_append, hne]
  · have hne : chars text sv ≠ k := h
    simp [valueOf, creates_append, sets_append, hne]

/-- The table after the calls. -/
structure Holds (text : Mem) (calls : List Call) (s : Enviroment × Heap)
    (xs : List VariableMapEntry) : Prop where
  stores : Stores s.2 s.1.variableMap xs
  distinct : (AssocVec.keys (pairs text xs)).Nodup
  value : ∀ k, AssocVec.find (pairs text xs) k = valueOf text k calls

theorem holds_init (text : Mem) (h : Heap) : Holds text [] (enviromentInit h) [] where
  stores := stores_init h
  distinct := List.nodup_nil
  value _ := rfl

theorem Holds.mem_keys (hh : Holds text calls s xs) (hset : SetsCreated text calls) :
    k ∈ AssocVec.keys (pairs text xs) ↔ creates text k calls ≠ [] := by
  rw [← not_iff_not, not_not, ← AssocVec.find_eq_none_iff, hh.value, valueOf_eq_none hset]

/-- **One call more.** -/
theorem Holds.call (hh : Holds text calls s xs) (hset : SetsCreated text (calls ++ [c])) :
    ∃ s' ys, call text s c = .ok s' ∧ Holds text (calls ++ [c]) s' ys := by
  have hmem := fun k => hh.mem_keys (k := k) hset.prefix
  rcases c with ⟨name, init⟩ | ⟨name, init⟩
  · by_cases hold : chars text name ∈ AssocVec.keys (pairs text xs)
    · refine ⟨s, xs, hh.stores.createVariable_of_mem hold, hh.stores, hh.distinct, fun k => ?_⟩
      rw [hh.value, valueOf, valueOf, sets_append, creates_append, sets_create, creates_create,
        List.append_nil]
      split
      · next heq => rw [List.head?_append_of_ne_nil _ ((hmem k).mp (heq ▸ hold))]
      · rw [List.append_nil]
    · obtain ⟨env', h', hc, hs, -⟩ := hh.stores.createVariable init hold
      have hpairs : pairs text (xs ++ [⟨name, init⟩]) =
          pairs text xs ++ [(chars text name, init)] := List.map_append
      refine ⟨(env', h'), _, hc, hs, ?_, fun k => ?_⟩
      · rw [hpairs]
        exact AssocVec.nodup_concat hh.distinct hold
      rw [hpairs, AssocVec.find_concat hold, hh.value]
      by_cases hk : k = chars text name
      · -- no value was created for the name or set for it
        subst hk
        have hnone := AssocVec.find_eq_none_iff.mpr hold
        rw [hh.value, valueOf, Option.or_eq_none_iff, List.head?_eq_none_iff,
          List.getLast?_eq_none_iff] at hnone
        rw [if_pos rfl, valueOf, sets_append, creates_append, hnone.1, hnone.2, sets_create,
          creates_create, if_pos rfl]
        rfl
      · rw [if_neg hk, valueOf_of_ne (c := .create name init) (Ne.symm hk)]
  · obtain ⟨i, hi⟩ : ∃ i, first text name xs = some i := Option.ne_none_iff_exists'.mp fun hnone =>
      first_eq_none hnone ((hmem _).mpr hset.last)
    obtain ⟨e, h', he, -, hc, hs⟩ := hh.stores.setVariable init hi
    obtain ⟨e₁, he₁, -, -, hkeys, hfind⟩ := first_eq_some (v := init) hi
    obtain rfl : e = e₁ := Option.some.inj (he.symm.trans he₁)
    refine ⟨(s.1, h'), _, by rw [Table.call, hc]; rfl, hs, hkeys ▸ hh.distinct, fun k => ?_⟩
    rw [hfind, hh.value]
    by_cases hk : k = chars text name
    · subst hk
      rw [if_pos rfl, valueOf, sets_append, sets_set, if_pos rfl, List.getLast?_append]
      rfl
    · rw [if_neg hk, valueOf_of_ne (c := .set name init) (Ne.symm hk)]

/-- Every sequence of calls comes to its end. -/
theorem holds_callAll (text : Mem) (h : Heap) (hset : SetsCreated text calls) :
    ∃ s xs, callAll text calls (enviromentInit h) = .ok s ∧ Holds text calls s xs := by
  induction calls using List.reverseRecOn with
  | nil => exact ⟨_, [], rfl, holds_init text h⟩
  | append_singleton calls c ih =>
      obtain ⟨s, xs, hs, hh⟩ := ih hset.prefix
      obtain ⟨s', ys, hc, hh'⟩ := hh.call hset
      refine ⟨s', ys, ?_, hh'⟩
      rw [callAll, List.foldlM_append, ← callAll, hs, ok_bind]
      exact (List.foldlM_cons ..).trans (by rw [hc]; rfl)

/-- **The laws of the environment**, after any sequence of calls in which only names are set that
were created before.  The first part is about the names as they are in memory. -/
theorem enviroment_laws (text : Mem) (h : Heap) (calls : List Call)
    (hset : SetsCreated text calls) :
    ∃ env h', callAll text calls (enviromentInit h) = .ok (env, h') ∧
      (∀ i j, i < j → j < env.variableMap.size →
        svEq text (entry.read h'.mem (env.variableMap.arr + i * entry.sizeof)).name
          (entry.read h'.mem (env.variableMap.arr + j * entry.sizeof)).name = false) ∧
      (∀ n, getVariable text env n h' = found (valueOf text (chars text n) calls)) ∧
      (∀ n init, creates text (chars text n) calls ≠ [] →
        createVariable text env n init h' = .ok (env, h')) ∧
      ∀ c, SetsCreated text (calls ++ [c]) → ∃ env' h'', call text (env, h') c = .ok (env', h'') ∧
        ∀ n, chars text n ≠ chars text c.view →
          getVariable text env' n h'' = getVariable text env n h' := by
  obtain ⟨⟨env, h'⟩, xs, hs, hh⟩ := holds_callAll text h hset
  refine ⟨env, h', hs, ?_, fun n => ?_, fun n init hn => ?_, fun c hc => ?_⟩
  · intro i j hij hj
    have hlen : xs.length = env.variableMap.size := hh.stores.size.symm
    have hi := List.getElem?_eq_getElem (l := xs) (i := i) (by omega)
    have hj := List.getElem?_eq_getElem (l := xs) (i := j) (by omega)
    rw [hh.stores.elems i _ hi, hh.stores.elems j _ hj, svEq_eq_decide, decide_eq_false_iff_not]
    have hkeys : (AssocVec.keys (pairs text xs)).length = xs.length := by
      rw [AssocVec.keys, pairs, List.length_map, List.length_map]
    have hdistinct := List.pairwise_iff_getElem.mp hh.distinct i j (by omega) (by omega) hij
    simpa [AssocVec.keys, pairs] using hdistinct
  · rw [hh.stores.getVariable n, hh.value]
  · exact hh.stores.createVariable_of_mem ((hh.mem_keys hset).mpr hn)
  · obtain ⟨⟨env', h''⟩, ys, hcall, hh'⟩ := hh.call hc
    refine ⟨env', h'', hcall, fun n hn => ?_⟩
    rw [hh'.stores.getVariable n, hh.stores.getVariable n, hh'.value, hh.value,
      valueOf_of_ne (Ne.symm hn)]

/-- A name of one character, set once it was created. -/
theorem enviroment_laws_set :
    ∃ env h', callAll (fun _ => 97) [.create ⟨1, 0⟩ ⟨1, 5, 0⟩, .set ⟨1, 8⟩ ⟨1, 7, 0⟩]
      (enviromentInit ⟨fun _ => 0, 0x50000000⟩) = .ok (env, h') ∧
        getVariable (fun _ => 97) env ⟨1, 16⟩ h' = .ok ⟨1, 7, 0⟩ := by
  have hset : SetsCreated (fun _ => 97)
      [.create ⟨1, 0⟩ ⟨1, 5, 0⟩, .set ⟨1, 8⟩ ⟨1, 7, 0⟩] := by
    intro pre name init post heq
    rcases pre with _ | ⟨c, _ | ⟨d, pre⟩⟩
    · cases heq
    · cases heq
      decide
    · simp at heq
  obtain ⟨env, h', hcalls, -, hget, -⟩ :=
    enviroment_laws (fun _ => 97) ⟨fun _ => 0, 0x50000000⟩ _ hset
  exact ⟨env, h', hcalls, hget ⟨1, 16⟩⟩

end Table

end Lisp

end RivOS
