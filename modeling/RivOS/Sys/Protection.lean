import RivOS.Support.Ownership
import RivOS.Sys.SysMod

/-!
# Sys — Who may touch a module

The entry table refines the exclusive-ownership machine (`run_ownership`): a successful `claim`
is a claim of the module, a successful `release` gives it back, and every other request leaves
the owners alone.  `Enforced` collects what this gives over every run of requests of non-zero
pids, and `modules_enforced` proves it.

The table is read through `entry` only.  `Table` says that exactly the two modules `init`
registers have one, and `entry_store` what a store through it does.
-/

namespace RivOS
open SysModuleHandler
open Ownership (Holds)

namespace SysModuleHandler

/-! ### Module names -/

/-- The known modules are those named `PIT` and `Framebuffer`, each by its own name only. -/
theorem toSysMId_eq_iff {mod : CStr} {m : SysModuleId} (hm : m ≠ .Unknown) :
    toSysMId mod = m ↔ mod = (SysModule.ofId m).name := by
  have hne : (SysModule.ofId .PIT).name ≠ (SysModule.ofId .Framebuffer).name := by decide
  unfold toSysMId
  simp only [streq_iff]
  by_cases hp : mod = (SysModule.ofId .PIT).name
  · subst hp
    cases m with
    | Unknown => exact absurd rfl hm
    | PIT => simp
    | Framebuffer => simp [hne]
  · by_cases hf : mod = (SysModule.ofId .Framebuffer).name
    · subst hf
      cases m with
      | Unknown => exact absurd rfl hm
      | PIT => simp [hp]
      | Framebuffer => simp [hp]
    · cases m <;> simp_all

/-! ### The entry table -/

/-- The table holds the entries `init` registers, in that order. -/
def Table (es : List Entry) : Prop :=
  ∃ p f, es = [p, f] ∧ p.module.id = .PIT ∧ f.module.id = .Framebuffer

theorem table_init : Table init := ⟨_, _, rfl, rfl, rfl⟩

theorem entry_known {es : List Entry} (h : Table es) {m : SysModuleId} (hm : m ≠ .Unknown) :
    ∃ e, entry es m = some e := by
  obtain ⟨p, f, rfl, hp, hf⟩ := h
  cases m <;> simp_all [entry, find, List.findIdx?_cons]

theorem entry_id {es : List Entry} (h : Table es) {m : SysModuleId} {e : Entry}
    (he : entry es m = some e) : e.module.id = m := by
  obtain ⟨p, f, rfl, hp, hf⟩ := h
  cases m <;> simp_all [entry, find, List.findIdx?_cons]

/-- A store through `find`'s pointer is seen at its module and at no other. -/
theorem entry_store {es : List Entry} (h : Table es) {m : SysModuleId} {e e' : Entry}
    (he : entry es m = some e) (hid : e'.module = e.module) (m' : SysModuleId) :
    entry (store es m e') m' = if m' = m then some e' else entry es m' := by
  have hid' : e'.module.id = m := by rw [hid]; exact entry_id h he
  obtain ⟨p, f, rfl, hp, hf⟩ := h
  cases m <;> cases m' <;> simp_all [entry, find, store, List.findIdx?_cons]

theorem table_store {es : List Entry} (h : Table es) {m : SysModuleId} {e e' : Entry}
    (he : entry es m = some e) (hid : e'.module = e.module) : Table (store es m e') := by
  have hid' : e'.module.id = m := by rw [hid]; exact entry_id h he
  obtain ⟨p, f, rfl, hp, hf⟩ := h
  cases m
  · simp [entry, find, List.findIdx?_cons, hp, hf] at he
  · exact ⟨e', f, by simp [store, find, List.findIdx?_cons, hp], hid', hf⟩
  · exact ⟨p, e', by simp [store, find, List.findIdx?_cons, hp, hf], hp, hid'⟩

/-! ### What each call does -/

variable {es es' : List Entry} {pid dir func doNothing ret : UInt32} {mod : CStr}
  {id : SysModuleId}

/-- A refused update returns `1` and changes nothing; a granted one stores at its module. -/
theorem update_cases {refuse : Entry → Bool} {f : Entry → Entry}
    (h : update es id refuse f = (ret, es')) :
    (ret = 1 ∧ es' = es ∧ ∀ e, entry es id = some e → refuse e = true) ∨
    ∃ e, entry es id = some e ∧ refuse e = false ∧ ret = 0 ∧ es' = store es id (f e) := by
  unfold update at h
  cases he : entry es id with
  | none =>
      simp only [he, Prod.mk.injEq] at h
      exact .inl ⟨h.1.symm, h.2.symm, fun _ h => nomatch h⟩
  | some e =>
      cases hr : refuse e with
      | true =>
          simp only [he, hr, if_true, Prod.mk.injEq] at h
          refine .inl ⟨h.1.symm, h.2.symm, ?_⟩
          rintro _ ⟨⟩
          exact hr
      | false =>
          simp only [he, hr, Bool.false_eq_true, if_false, Prod.mk.injEq] at h
          exact .inr ⟨e, rfl, hr, h.1.symm, h.2.symm⟩

theorem claim_cases (ht : Table es) (h : claim pid mod es = (ret, es')) :
    (ret = 1 ∧ es' = es ∧ (toSysMId mod = .Unknown ∨ getowner es (toSysMId mod) ≠ 0)) ∨
    ∃ e, toSysMId mod ≠ .Unknown ∧ entry es (toSysMId mod) = some e ∧ e.owner = 0 ∧ ret = 0 ∧
      es' = store es (toSysMId mod) { e with owner := pid } := by
  unfold claim at h
  by_cases hk : toSysMId mod = .Unknown
  · simp only [hk, if_true, Prod.mk.injEq] at h
    exact .inl ⟨h.1.symm, h.2.symm, .inl hk⟩
  · simp only [hk, if_false] at h
    obtain ⟨e, he⟩ := entry_known ht hk
    rcases update_cases h with ⟨hr, hs, hf⟩ | ⟨e', he', hf, hr, hs⟩
    · refine .inl ⟨hr, hs, .inr ?_⟩
      simpa [getowner, he] using hf e he
    · exact .inr ⟨e', hk, he', by simpa using hf, hr, hs⟩

theorem release_cases (h : release doNothing pid mod es = (ret, es')) :
    (ret = 1 ∧ es' = es) ∨
    ∃ e, entry es (toSysMId mod) = some e ∧ e.owner = pid ∧ ret = 0 ∧
      es' = store es (toSysMId mod) { e with owner := 0, func := doNothing } := by
  rcases update_cases h with ⟨hr, hs, -⟩ | ⟨e, he, hf, hr, hs⟩
  · exact .inl ⟨hr, hs⟩
  · exact .inr ⟨e, he, by simpa using hf, hr, hs⟩

theorem setFunc_cases (h : setFunc pid dir mod func es = (ret, es')) :
    (ret = 1 ∧ es' = es) ∨
    ∃ e, entry es (toSysMId mod) = some e ∧ e.owner = pid ∧ ret = 0 ∧
      es' = store es (toSysMId mod) { e with func := func, ownerDir := dir } := by
  unfold setFunc at h
  by_cases hk : toSysMId mod = .Unknown
  · simp only [hk, if_true, Prod.mk.injEq] at h
    exact .inl ⟨h.1.symm, h.2.symm⟩
  · simp only [hk, if_false] at h
    rcases update_cases h with ⟨hr, hs, -⟩ | ⟨e, he, hf, hr, hs⟩
    · exact .inl ⟨hr, hs⟩
    · exact .inr ⟨e, he, by simpa using hf, hr, hs⟩

/-- Possession as the ownership machine has it: pid `0` is nobody. -/
def ownerMap (es : List Entry) (m : SysModuleId) : Option UInt32 :=
  if getowner es m = 0 then none else some (getowner es m)

theorem getowner_of_entry {es : List Entry} {m : SysModuleId} {e : Entry}
    (h : entry es m = some e) : getowner es m = e.owner := by simp [getowner, h]

theorem getFunc_of_entry {es : List Entry} {m : SysModuleId} {e : Entry}
    (h : entry es m = some e) :
    getFunc doNothing es m = if e.func = 0 then doNothing else e.func := by simp [getFunc, h]

theorem getowner_store (h : Table es) {m : SysModuleId} {e : Entry} (he : entry es m = some e)
    {o f d : UInt32} (m' : SysModuleId) :
    getowner (store es m ⟨e.module, o, f, d⟩) m' = if m' = m then o else getowner es m' := by
  by_cases hm : m' = m <;> simp [getowner, entry_store h he, hm]

theorem getFunc_store (h : Table es) {m : SysModuleId} {e : Entry} (he : entry es m = some e)
    {o f d : UInt32} (m' : SysModuleId) :
    getFunc doNothing (store es m ⟨e.module, o, f, d⟩) m' =
      if m' = m then (if f = 0 then doNothing else f) else getFunc doNothing es m' := by
  by_cases hm : m' = m <;> simp [getFunc, entry_store h he, hm]

end SysModuleHandler

/-! ### Requests -/

variable {doNothing : UInt32} {v : Visuals} {s t : SysState} {r : Request} {ret : UInt32}

/-- A store into the entry of `m`. -/
def SysState.setEntry (s : SysState) (m : SysModuleId) (e : SysModuleHandler.Entry) : SysState :=
  { s with entries := SysModuleHandler.store s.entries m e }

@[simp] theorem SysState.setEntry_entries (s : SysState) (m : SysModuleId)
    (e : SysModuleHandler.Entry) :
    (s.setEntry m e).entries = SysModuleHandler.store s.entries m e := rfl

@[simp] theorem SysState.setEntry_pixels (s : SysState) (m : SysModuleId)
    (e : SysModuleHandler.Entry) : (s.setEntry m e).pixels = s.pixels := rfl

/-- What a request can do to the state. -/
inductive Effect (doNothing : UInt32) (v : Visuals) (s : SysState) (r : Request) :
    UInt32 → SysState → Prop where
  | claimed {mod : CStr} {e : SysModuleHandler.Entry} (hc : r.call = .claim mod)
      (he : entry s.entries (toSysMId mod) = some e) (ho : e.owner = 0) :
      Effect doNothing v s r 0
        (s.setEntry (toSysMId mod) { e with owner := r.pid })
  | released {mod : CStr} {e : SysModuleHandler.Entry} (hc : r.call = .release mod)
      (he : entry s.entries (toSysMId mod) = some e) (ho : e.owner = r.pid) :
      Effect doNothing v s r 0
        (s.setEntry (toSysMId mod) { e with owner := 0, func := doNothing })
  | installed {mod : CStr} {func : UInt32} {e : SysModuleHandler.Entry}
      (hc : r.call = .setFunc mod func) (he : entry s.entries (toSysMId mod) = some e)
      (ho : e.owner = r.pid) :
      Effect doNothing v s r 0
        (s.setEntry (toSysMId mod) { e with func := func, ownerDir := r.dir })
  | painted {argb x y : UInt32} (hc : r.call = .putPixel argb x y)
      (ho : getowner s.entries .Framebuffer = r.pid) :
      Effect doNothing v s r 0 { s with pixels := v.putPixel argb x y s.pixels }
  | refused {ret : UInt32} (h : ret ≠ 0) : Effect doNothing v s r ret s
  | read {ret : UInt32} (h : ∀ mod, r.call ≠ .claim mod) (h' : ∀ mod, r.call ≠ .release mod) :
      Effect doNothing v s r ret s

theorem enforce_eq_false_iff {pid : UInt32} {es : List SysModuleHandler.Entry} :
    VisualsPidEnforced.enforce pid es = false ↔
      getowner es .Framebuffer ≠ 0 ∧ getowner es .Framebuffer = pid := by
  simp only [VisualsPidEnforced.enforce]
  split
  · simp_all
  · split <;> simp_all [eq_comm]

theorem exec_effect (ht : SysModuleHandler.Table s.entries) (h : s.exec doNothing v r = (ret, t)) :
    Effect doNothing v s r ret t := by
  unfold SysState.exec at h
  split at h
  case h_1 mod hc =>
      cases hu : claim r.pid mod s.entries with
      | mk ret' es =>
          rw [hu] at h; cases h
          rcases claim_cases ht hu with ⟨hr, rfl, -⟩ | ⟨e, -, he, ho, rfl, rfl⟩
          · exact .refused (by rw [hr]; decide)
          · exact .claimed hc he ho
  case h_2 mod hc =>
      cases hu : release doNothing r.pid mod s.entries with
      | mk ret' es =>
          rw [hu] at h; cases h
          rcases release_cases hu with ⟨hr, rfl⟩ | ⟨e, he, ho, rfl, rfl⟩
          · exact .refused (by rw [hr]; decide)
          · exact .released hc he ho
  case h_3 mod func hc =>
      cases hu : setFunc r.pid r.dir mod func s.entries with
      | mk ret' es =>
          rw [hu] at h; cases h
          rcases setFunc_cases hu with ⟨hr, rfl⟩ | ⟨e, he, ho, rfl, rfl⟩
          · exact .refused (by rw [hr]; decide)
          · exact .installed hc he ho
  case h_4 argb x y hc =>
      obtain ⟨rfl, rfl⟩ := Prod.mk.inj h
      cases hf : VisualsPidEnforced.enforce r.pid s.entries with
      | true =>
          have hr : (1 : UInt32) ≠ 0 := by decide
          simpa [VisualsPidEnforced.putPixel, hf] using .refused hr
      | false =>
          simpa [VisualsPidEnforced.putPixel, hf] using .painted hc (enforce_eq_false_iff.mp hf).2
  all_goals
    obtain ⟨-, rfl⟩ := Prod.mk.inj h
    exact .read (by simp [*]) (by simp [*])

/-! ### Runs -/

/-- A request of some process, logged with the value it returned. -/
def SysState.Step (doNothing : UInt32) (v : Visuals) (s : SysState) (e : Request × UInt32)
    (t : SysState) : Prop :=
  e.1.pid ≠ 0 ∧ s.exec doNothing v e.1 = (e.2, t)

/-- The change of ownership a logged request made. -/
def ownEvent (e : Request × UInt32) : Option (Ownership.Event SysModuleId UInt32) :=
  if e.2 ≠ 0 then none else
  match e.1.call with
  | .claim mod => some (.claimed (toSysMId mod) e.1.pid)
  | .release mod => some (.released (toSysMId mod) e.1.pid)
  | _ => none

def ownership (es : List (Request × UInt32)) : List (Ownership.Event SysModuleId UInt32) :=
  es.filterMap ownEvent

theorem ownership_concat (es : List (Request × UInt32)) (e : Request × UInt32) :
    ownership (es ++ [e]) = ownership es ++ (ownEvent e).toList := by
  cases h : ownEvent e <;> simp [ownership, h]

theorem table_step (ht : SysModuleHandler.Table s.entries) (h : Effect doNothing v s r ret t) :
    SysModuleHandler.Table t.entries := by
  cases h with
  | claimed _ he _ | released _ he _ | installed _ he _ => exact table_store ht he rfl
  | painted | refused | read => exact ht

/-- Every request is a step of the ownership machine or leaves the owners alone. -/
theorem ownerMap_step (ht : SysModuleHandler.Table s.entries) (hp : r.pid ≠ 0)
    (h : Effect doNothing v s r ret t) :
    (∃ e, ownEvent (r, ret) = some e ∧
      Ownership.Step (ownerMap s.entries) e (ownerMap t.entries)) ∨
    (ownEvent (r, ret) = none ∧ ownerMap t.entries = ownerMap s.entries) := by
  cases h with
  -- only a claim and a release are events; what else happens leaves the owners alone
  | @claimed mod e hc he ho =>
      have ho' := getowner_of_entry he
      refine .inl ⟨.claimed (toSysMId mod) r.pid, by simp [ownEvent, hc], ?_⟩
      convert Ownership.Step.claim (k := toSysMId mod) (p := r.pid) ?_
      · funext m
        by_cases hm : m = toSysMId mod <;>
          simp [ownerMap, getowner_store ht he, hm, hp]
      · simp [ownerMap, ho', ho]
  | @released mod e hc he ho =>
      have ho' := getowner_of_entry he
      refine .inl ⟨.released (toSysMId mod) r.pid, by simp [ownEvent, hc], ?_⟩
      convert Ownership.Step.release (k := toSysMId mod) (p := r.pid) ?_
      · funext m
        by_cases hm : m = toSysMId mod <;>
          simp [ownerMap, getowner_store ht he, hm]
      · simp [ownerMap, ho', ho, hp]
  | @installed mod func e hc he ho =>
      refine .inr ⟨by simp [ownEvent, hc], ?_⟩
      funext m
      by_cases hm : m = toSysMId mod
      · simp [ownerMap, getowner_store ht he, hm, getowner_of_entry he]
      · simp [ownerMap, getowner_store ht he, hm]
  | painted hc _ => exact .inr ⟨by simp [ownEvent, hc], rfl⟩
  | refused h => exact .inr ⟨by simp [ownEvent, h], rfl⟩
  | read h h' =>
      refine .inr ⟨?_, rfl⟩
      cases hc : r.call with
      | claim mod => exact absurd hc (h mod)
      | release mod => exact absurd hc (h' mod)
      | _ => simp [ownEvent, hc]

/-- The state after `SysModuleHandler::init`, whatever is on the screen. -/
def SysState.init (px : Visuals.Pixels) : SysState := ⟨SysModuleHandler.init, px⟩

variable {px : Visuals.Pixels} {es : List (Request × UInt32)}

theorem run_table (run : Run (SysState.Step doNothing v) (.init px) es s) :
    SysModuleHandler.Table s.entries :=
  run.inv (I := fun s => SysModuleHandler.Table s.entries) table_init fun ht h =>
    table_step ht (exec_effect ht h.2)

/-- **Refinement**: the owners of a run are those of the ownership machine. -/
theorem run_ownership (run : Run (SysState.Step doNothing v) (.init px) es s) :
    Run Ownership.Step (fun _ => none) (ownership es) (ownerMap s.entries) := by
  refine run.invHist
    (I := fun es s => Run Ownership.Step (fun _ => none) (ownership es) (ownerMap s.entries)) ?_ ?_
  · have : ownerMap (SysState.init px).entries = fun _ => none := by
      funext m; cases m <;> rfl
    rw [this]
    exact .nil
  · intro es s ⟨r, ret⟩ t run ih h
    have ht := run_table run
    rw [ownership_concat]
    rcases ownerMap_step ht h.1 (exec_effect ht h.2) with ⟨e, he, hs⟩ | ⟨he, hs⟩
    · rw [he]; exact ih.snoc hs
    · rw [he, hs]; simpa using ih

theorem holds_iff_getowner (run : Run (SysState.Step doNothing v) (.init px) es s)
    {m : SysModuleId} {p : UInt32} :
    Holds (ownership es) m p ↔ p ≠ 0 ∧ getowner s.entries m = p := by
  rw [Ownership.holds_iff_owner (run_ownership run), ownerMap]
  split
  · next h => simp [h, eq_comm]
  · next h =>
      simp only [Option.some.injEq]
      exact ⟨fun e => ⟨e ▸ h, e⟩, And.right⟩

/-! ### The function of a module -/

/-- `f` was installed for `m` by `p`, which has not released `m` since. -/
def Installed (es : List (Request × UInt32)) (m : SysModuleId) (p f : UInt32) : Prop :=
  ∃ pre post dir mod, es = pre ++ (⟨p, dir, .setFunc mod f⟩, 0) :: post ∧ toSysMId mod = m ∧
    .released m p ∉ ownership post

/-- A module's function is `doNothing`, or its owner installed it. -/
def FuncOwned (doNothing : UInt32) (es : List (Request × UInt32)) (s : SysState) : Prop :=
  ∀ m, getFunc doNothing s.entries m = doNothing ∨
    (getowner s.entries m ≠ 0 ∧
      Installed es m (getowner s.entries m) (getFunc doNothing s.entries m))

theorem Installed.concat {m : SysModuleId} {p f : UInt32} (h : Installed es m p f)
    {e : Request × UInt32} (he : ownEvent e ≠ some (.released m p)) :
    Installed (es ++ [e]) m p f := by
  obtain ⟨pre, post, dir, mod, rfl, hm, hn⟩ := h
  refine ⟨pre, post ++ [e], dir, mod, by simp, hm, ?_⟩
  rw [ownership_concat, List.mem_append, not_or]
  exact ⟨hn, by simpa [eq_comm] using he⟩

theorem funcOwned_step (ht : SysModuleHandler.Table s.entries) (hp : r.pid ≠ 0)
    (hf : FuncOwned doNothing es s)
    (h : Effect doNothing v s r ret t) : FuncOwned doNothing (es ++ [(r, ret)]) t := by
  intro m
  cases h with
  | @claimed mod e hc he ho =>
      by_cases hm : m = toSysMId mod
      · -- nobody had the module, so nobody's function was installed
        left
        subst hm
        have := (hf (toSysMId mod)).resolve_right fun h => h.1 (by rw [getowner_of_entry he, ho])
        rwa [SysState.setEntry_entries, getFunc_store ht he, if_pos rfl, ← getFunc_of_entry he]
      · rw [SysState.setEntry_entries, getFunc_store ht he, getowner_store ht he, if_neg hm,
          if_neg hm]
        exact (hf m).imp id fun h => ⟨h.1, h.2.concat (by simp [ownEvent, hc])⟩
  | @released mod e hc he ho =>
      by_cases hm : m = toSysMId mod
      · left
        rw [SysState.setEntry_entries, getFunc_store ht he, if_pos hm]
        split <;> rfl
      · rw [SysState.setEntry_entries, getFunc_store ht he, getowner_store ht he, if_neg hm,
          if_neg hm]
        refine (hf m).imp id fun h => ⟨h.1, h.2.concat ?_⟩
        simp only [ownEvent, hc, ne_eq, not_true_eq_false, if_false, Option.some.injEq]
        exact fun h => hm (Ownership.Event.released.inj h).1.symm
  | @installed mod func e hc he ho =>
      by_cases hm : m = toSysMId mod
      · rw [SysState.setEntry_entries, getFunc_store ht he, getowner_store ht he, if_pos hm,
          if_pos hm]
        by_cases h0 : func = 0
        · exact .inl (by simp [h0])
        · refine .inr ⟨ho ▸ hp, es, [], r.dir, mod, ?_, hm.symm, by simp [ownership]⟩
          simp only [h0, if_false, ho, ← hc]
      · rw [SysState.setEntry_entries, getFunc_store ht he, getowner_store ht he, if_neg hm,
          if_neg hm]
        exact (hf m).imp id fun h => ⟨h.1, h.2.concat (by simp [ownEvent, hc])⟩
  | painted hc _ => exact (hf m).imp id fun h => ⟨h.1, h.2.concat (by simp [ownEvent, hc])⟩
  | refused h => exact (hf m).imp id fun h' => ⟨h'.1, h'.2.concat (by simp [ownEvent, h])⟩
  | read h h' =>
      refine (hf m).imp id fun h'' => ⟨h''.1, h''.2.concat ?_⟩
      cases hc : r.call with
      | release mod => exact absurd hc (h' mod)
      | _ => simp [ownEvent, hc]

theorem run_funcOwned (run : Run (SysState.Step doNothing v) (.init px) es s) :
    FuncOwned doNothing es s := by
  refine run.invHist (I := FuncOwned doNothing) (fun m => ?_) fun run ih h =>
    funcOwned_step (run_table run) h.1 ih (exec_effect (run_table run) h.2)
  cases m <;> exact .inl rfl

/-! ### Protection -/

/-- What a request `r` that returned `ret` may do to `s`. -/
structure Permitted (doNothing : UInt32) (v : Visuals) (es : List (Request × UInt32))
    (s : SysState) (r : Request) (ret : UInt32) (t : SysState) : Prop where
  /-- A claim succeeds exactly on a known module nobody has. -/
  claim : ∀ mod, r.call = .claim mod →
    (ret = 0 ↔ ∃ m ≠ .Unknown, mod = (SysModule.ofId m).name ∧ ∀ p, ¬ Holds (ownership es) m p)
  /-- Only the owner can release a module. -/
  release : ∀ mod, r.call = .release mod → ret = 0 → Holds (ownership es) (toSysMId mod) r.pid
  /-- Only the owner can install a function. -/
  setFunc : ∀ mod f, r.call = .setFunc mod f → ret = 0 →
    Holds (ownership es) (toSysMId mod) r.pid
  /-- A module loses its owner only to that owner's request. -/
  lost : ∀ m p, Holds (ownership es) m p → ¬ Holds (ownership (es ++ [(r, ret)])) m p → r.pid = p
  /-- A module's function changes only at its owner's request. -/
  func : ∀ m, getFunc doNothing t.entries m ≠ getFunc doNothing s.entries m →
    Holds (ownership es) m r.pid
  /-- A failed call changes nothing. -/
  failed : ret ≠ 0 → t = s
  /-- A read changes nothing, refused or not. -/
  read : r.call = .getFbPhysAddr ∨ r.call = .getFbSizeBytes ∨ r.call = .getScreenHeight ∨
    r.call = .getScreenWidth ∨ r.call = .getPitch → t = s
  /-- Pixels change only in the owner's `putPixel`, at one cell of the screen. -/
  pixels : t.pixels ≠ s.pixels → ∃ argb x y, r.call = .putPixel argb x y ∧
    Holds (ownership es) .Framebuffer r.pid ∧ x < v.fbWidth ∧ y < v.fbHeight ∧
    t.pixels = Function.update s.pixels (v.cell x y) argb

/-- The state of a run, and what the next request may do. -/
structure Enforced (doNothing : UInt32) (v : Visuals) (es : List (Request × UInt32))
    (s : SysState) : Prop where
  /-- A module has at most one owner, the one `getowner` names. -/
  owner : ∀ m p q, Holds (ownership es) m p → Holds (ownership es) m q → p = q
  getowner : ∀ m p, Holds (ownership es) m p ↔ p ≠ 0 ∧ getowner s.entries m = p
  /-- The function of a module is `doNothing` or installed by its present owner. -/
  installed : ∀ m, getFunc doNothing s.entries m = doNothing ∨
    ∃ p, Holds (ownership es) m p ∧ Installed es m p (getFunc doNothing s.entries m)
  next : ∀ r ret t, r.pid ≠ 0 → s.exec doNothing v r = (ret, t) →
    Permitted doNothing v es s r ret t

/-- A granted `putPixel` writes one cell of the screen, or nothing when `(x, y)` lies outside. -/
theorem putPixel_cell {argb x y : UInt32} {mem : Visuals.Pixels}
    (h : v.putPixel argb x y mem ≠ mem) :
    x < v.fbWidth ∧ y < v.fbHeight ∧
      v.putPixel argb x y mem = Function.update mem (v.cell x y) argb := by
  unfold Visuals.putPixel at h ⊢
  by_cases hc : x ≥ v.fbWidth ∨ y ≥ v.fbHeight
  · exact absurd (if_pos hc) h
  · rw [not_or, ge_iff_le, ge_iff_le, UInt32.not_le, UInt32.not_le] at hc
    refine ⟨hc.1, hc.2, ?_⟩
    rw [if_neg (by simp [hc])]
    funext a
    simp [Function.update_apply]

theorem holds_of_entry (run : Run (SysState.Step doNothing v) (.init px) es s) (hp : r.pid ≠ 0)
    {m : SysModuleId} {e : SysModuleHandler.Entry} (he : entry s.entries m = some e)
    (ho : e.owner = r.pid) : Holds (ownership es) m r.pid :=
  (holds_iff_getowner run).mpr ⟨hp, by rw [getowner_of_entry he, ho]⟩

theorem claim_iff_of_run {mod : CStr} (run : Run (SysState.Step doNothing v) (.init px) es s)
    (h : s.exec doNothing v r = (ret, t)) (hc : r.call = .claim mod) :
    ret = 0 ↔ ∃ m ≠ .Unknown, mod = (SysModule.ofId m).name ∧
      ∀ p, ¬ Holds (ownership es) m p := by
  cases hu : claim r.pid mod s.entries with | mk ret' es' => ?_
  obtain rfl : ret' = ret := by simpa [SysState.exec, hc, hu] using congrArg Prod.fst h
  rcases claim_cases (run_table run) hu with ⟨rfl, -, ho⟩ | ⟨e, hk, he, ho, rfl, -⟩
  · refine ⟨fun h => absurd h (by decide), fun ⟨m, hk, hm, hn⟩ => ?_⟩
    obtain rfl := (toSysMId_eq_iff hk).mpr hm
    exact absurd ((holds_iff_getowner run).mpr ⟨ho.resolve_left hk, rfl⟩) (hn _)
  · refine ⟨fun _ => ⟨_, hk, (toSysMId_eq_iff hk).mp rfl, fun p hp => ?_⟩, fun _ => rfl⟩
    obtain ⟨h0, hp⟩ := (holds_iff_getowner run).mp hp
    rw [getowner_of_entry he, ho] at hp
    exact h0 hp.symm

theorem holds_of_setFunc {mod : CStr} {f : UInt32}
    (run : Run (SysState.Step doNothing v) (.init px) es s) (hp : r.pid ≠ 0)
    (h : s.exec doNothing v r = (ret, t)) (hc : r.call = .setFunc mod f) (h0 : ret = 0) :
    Holds (ownership es) (toSysMId mod) r.pid := by
  cases hu : setFunc r.pid r.dir mod f s.entries with | mk ret' es' => ?_
  obtain rfl : ret' = ret := by simpa [SysState.exec, hc, hu] using congrArg Prod.fst h
  rcases setFunc_cases hu with ⟨rfl, -⟩ | ⟨e, he, ho, -⟩
  · exact absurd h0 (by decide)
  · exact holds_of_entry run hp he ho

/-- A request takes a module from nobody but its own process. -/
theorem pid_of_lost {m : SysModuleId} {p : UInt32} (hm : Holds (ownership es) m p)
    (hm' : ¬ Holds (ownership (es ++ [(r, ret)])) m p) : r.pid = p := by
  rw [ownership_concat] at hm'
  cases he : ownEvent (r, ret) with
  | none =>
      rw [he] at hm'
      simp only [Option.toList, List.append_nil] at hm'
      exact absurd hm hm'
  | some e =>
      rw [he, Option.toList, Ownership.holds_concat_iff] at hm'
      simp only [hm, true_and, not_or, not_not] at hm'
      obtain rfl := hm'.2
      unfold ownEvent at he
      split at he
      · cases he
      · split at he <;> simp_all

theorem holds_of_func (run : Run (SysState.Step doNothing v) (.init px) es s) (hp : r.pid ≠ 0)
    (h : Effect doNothing v s r ret t) {m : SysModuleId}
    (hm : getFunc doNothing t.entries m ≠ getFunc doNothing s.entries m) :
    Holds (ownership es) m r.pid := by
  have ht := run_table run
  cases h with
  | @installed mod func e hc he ho | @released mod e hc he ho =>
      rw [SysState.setEntry_entries, getFunc_store ht he] at hm
      by_cases e : m = toSysMId mod
      · subst e
        exact holds_of_entry run hp he ho
      · rw [if_neg e] at hm
        exact absurd rfl hm
  | @claimed mod e hc he ho =>
      -- a claim stores the function that the entry has
      rw [SysState.setEntry_entries, getFunc_store ht he] at hm
      by_cases e : m = toSysMId mod
      · rw [if_pos e, e, getFunc_of_entry he] at hm
        exact absurd rfl hm
      · rw [if_neg e] at hm
        exact absurd rfl hm
  | painted | refused | read => exact absurd rfl hm

theorem permitted_of_run (run : Run (SysState.Step doNothing v) (.init px) es s)
    (hp : r.pid ≠ 0) (h : s.exec doNothing v r = (ret, t)) :
    Permitted doNothing v es s r ret t where
  claim _ hc := claim_iff_of_run run h hc
  release mod hc h0 := by
    cases exec_effect (run_table run) h with
    | released hc' he ho =>
        obtain rfl := SysCall.release.inj (hc'.symm.trans hc)
        exact holds_of_entry run hp he ho
    | claimed hc' | installed hc' | painted hc' => exact nomatch hc'.symm.trans hc
    | refused hr => exact absurd h0 hr
    | read _ hn => exact absurd hc (hn mod)
  setFunc _ _ hc h0 := holds_of_setFunc run hp h hc h0
  lost _ _ := pid_of_lost
  func _ hm := holds_of_func run hp (exec_effect (run_table run) h) hm
  failed h0 := by
    cases exec_effect (run_table run) h with
    | refused | read => rfl
    | claimed | released | installed | painted => exact absurd rfl h0
  read hc := by
    cases exec_effect (run_table run) h with
    | refused | read => rfl
    | claimed hc' | released hc' | installed hc' | painted hc' => simp [hc'] at hc
  pixels hne := by
    cases exec_effect (run_table run) h with
    | @painted argb x y hc ho =>
        obtain ⟨hx, hy, hpx⟩ := putPixel_cell hne
        exact ⟨argb, x, y, hc, (holds_iff_getowner run).mpr ⟨hp, ho⟩, hx, hy, hpx⟩
    | claimed | released | installed | refused | read => exact absurd rfl hne

/-- **Module ownership and framebuffer protection**, over every run of requests of non-zero pids. -/
theorem modules_enforced (doNothing : UInt32) (v : Visuals) (px : Visuals.Pixels)
    (es : List (Request × UInt32)) (s : SysState)
    (run : Run (SysState.Step doNothing v) (.init px) es s) : Enforced doNothing v es s where
  owner _ _ _ hp hq := Ownership.holds_unique (run_ownership run) hp hq
  getowner _ _ := holds_iff_getowner run
  installed m := (run_funcOwned run m).imp id fun h =>
    ⟨_, (holds_iff_getowner run).mpr ⟨h.1, rfl⟩, h.2⟩
  next _ _ _ hp h := permitted_of_run run hp h

/-- Process `7` claims the framebuffer and paints the top left cell. -/
theorem modules_enforced_painted :
    Enforced 1 ⟨0, 8, 2, 2, 0⟩
      [(⟨7, 0, .claim (SysModule.ofId .Framebuffer).name⟩, 0), (⟨7, 0, .putPixel 5 0 0⟩, 0)]
      ⟨[.new .PIT, { SysModuleHandler.Entry.new .Framebuffer with owner := 7 }],
        fun a => if a = 0 then 5 else 0⟩ := by
  have claimed : Run (SysState.Step 1 ⟨0, 8, 2, 2, 0⟩) (.init fun _ => 0)
      [(⟨7, 0, .claim (SysModule.ofId .Framebuffer).name⟩, 0)]
      ⟨[.new .PIT, { SysModuleHandler.Entry.new .Framebuffer with owner := 7 }], fun _ => 0⟩ :=
    Run.nil.snoc ⟨by decide, rfl⟩
  exact modules_enforced 1 _ _ _ _ (claimed.snoc ⟨by decide, rfl⟩)

/-! ### The cells of the screen -/

/-- Where a row of the framebuffer holds a row of the screen and the framebuffer fits the address
space, the index of a cell is the row-major one. -/
theorem idx_toNat {x y : UInt32} (hw : 4 * v.fbWidth.toNat ≤ v.fbPitch.toNat)
    (hb : v.fbPitch.toNat * v.fbHeight.toNat < 2 ^ 32) (hx : x < v.fbWidth) (hy : y < v.fbHeight) :
    (v.idx x y).toNat = y.toNat * (v.fbPitch.toNat / 4) + x.toNat ∧
      4 * (v.idx x y).toNat < 2 ^ 32 := by
  rw [UInt32.lt_iff_toNat_lt] at hx hy
  have hrow : (y.toNat + 1) * (v.fbPitch.toNat / 4) ≤ v.fbHeight.toNat * (v.fbPitch.toNat / 4) :=
    Nat.mul_le_mul_right _ hy
  have htot : 4 * (v.fbHeight.toNat * (v.fbPitch.toNat / 4)) ≤
      v.fbPitch.toNat * v.fbHeight.toNat := by
    rw [Nat.mul_left_comm, Nat.mul_comm v.fbPitch.toNat]
    exact Nat.mul_le_mul_left _ (Nat.mul_div_le _ _)
  have hcol : x.toNat < v.fbPitch.toNat / 4 := by omega
  rw [Nat.add_mul, Nat.one_mul] at hrow
  have hval : (v.idx x y).toNat = y.toNat * (v.fbPitch.toNat / 4) + x.toNat := by
    rw [Visuals.idx, UInt32.toNat_add, UInt32.toNat_mul, UInt32.toNat_div]
    rw [show (4 : UInt32).toNat = 4 from rfl, Nat.mod_add_mod, Nat.mod_eq_of_lt]
    omega
  exact ⟨hval, by omega⟩

/-- Distinct points of the screen have distinct cells. -/
theorem cell_inj {x y x' y' : UInt32} (hw : 4 * v.fbWidth.toNat ≤ v.fbPitch.toNat)
    (hb : v.fbPitch.toNat * v.fbHeight.toNat < 2 ^ 32) (hx : x < v.fbWidth) (hy : y < v.fbHeight)
    (hx' : x' < v.fbWidth) (hy' : y' < v.fbHeight) (h : v.cell x y = v.cell x' y') :
    x = x' ∧ y = y' := by
  obtain ⟨hi, hlt⟩ := idx_toNat hw hb hx hy
  obtain ⟨hi', hlt'⟩ := idx_toNat hw hb hx' hy'
  have hmul : v.idx x y * 4 = v.idx x' y' * 4 := (UInt32.add_right_inj _).mp h
  have hidx : (v.idx x y).toNat = (v.idx x' y').toNat := by
    have := congrArg UInt32.toNat hmul
    rw [UInt32.toNat_mul, UInt32.toNat_mul, show (4 : UInt32).toNat = 4 from rfl,
      Nat.mod_eq_of_lt (by omega), Nat.mod_eq_of_lt (by omega)] at this
    omega
  rw [UInt32.lt_iff_toNat_lt] at hx hx'
  have hcol : x.toNat < v.fbPitch.toNat / 4 := by omega
  have hcol' : x'.toNat < v.fbPitch.toNat / 4 := by omega
  rw [hi, hi', Nat.mul_comm, Nat.mul_comm y'.toNat] at hidx
  have hy_eq := congrArg (· / (v.fbPitch.toNat / 4)) hidx
  have hx_eq := congrArg (· % (v.fbPitch.toNat / 4)) hidx
  simp only [Nat.mul_add_mod, Nat.mod_eq_of_lt hcol, Nat.mod_eq_of_lt hcol'] at hx_eq
  simp only [Nat.mul_add_div (Nat.zero_lt_of_lt hcol), Nat.div_eq_of_lt hcol,
    Nat.div_eq_of_lt hcol', Nat.add_zero] at hy_eq
  exact ⟨UInt32.toNat_inj.mp hx_eq, UInt32.toNat_inj.mp hy_eq⟩

end RivOS
