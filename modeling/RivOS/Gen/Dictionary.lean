import RivOS.Gen.Map
import RivOS.Support.Runs

/-!
# Gen — What a map is told and what it answers

Any sequence of `insert`, of `m[k] = v` on a key that `m[k]` finds, and of `rmkey`, on a new map.
`insert` puts a second entry behind the first one of a key, where no lookup finds it; `m[k] = v`
stores in a copy; `rmkey` takes away one entry of a key and leaves the others.

* `Answers`: what the map answers is what the sequence says.
* `frame`: a call leaves the other keys alone.
* `finiteMap_iff`: the map is a finite map as long as no key with a value is given another one, and
  a key that was inserted twice is not removed.
-/

namespace RivOS.Map

universe u v

variable {κ : Type u} {ν : Type v} [DecidableEq κ]

inductive Call (κ : Type u) (ν : Type v) where
  | insert (k : κ) (v : ν)
  | assign (k : κ) (v : ν)
  | rmkey (k : κ)
deriving DecidableEq

def Call.key : Call κ ν → κ
  | .insert k _ => k
  | .assign k _ => k
  | .rmkey k => k

/-- `Map()`. -/
def new : Map κ ν := ⟨[]⟩

/-- `m[k] = v` is made where `m[k]` does not panic. -/
inductive Step : Map κ ν → Call κ ν → Map κ ν → Prop where
  | insert {m : Map κ ν} (k : κ) (v : ν) : Step m (.insert k v) (m.insert k v)
  | assign {m m' : Map κ ν} (k : κ) (v : ν) (h : m.assign k v = some m') : Step m (.assign k v) m'
  | rmkey {m : Map κ ν} (k : κ) : Step m (.rmkey k) (m.rmkey k)

/-! ### What the calls say -/

/-- How often `k` was inserted since its last `rmkey`. -/
def inserts (es : List (Call κ ν)) (k : κ) : Nat :=
  es.foldl (fun n e => match e with
    | .insert k' _ => if k' = k then n + 1 else n
    | .assign _ _ => n
    | .rmkey k' => if k' = k then 0 else n) 0

/-- The value last stored for `k`. -/
def stored (es : List (Call κ ν)) (k : κ) : Option ν :=
  es.foldl (fun x e => match e with
    | .insert k' v => if k' = k then some v else x
    | .assign k' v => if k' = k then some v else x
    | .rmkey _ => x) none

/-- `exists` and `m[k]` answer as the calls so far say. -/
structure Answers (es : List (Call κ ν)) (m : Map κ ν) : Prop where
  present : ∀ k, m.exists k = true ↔ 0 < inserts es k
  value : ∀ k, 0 < inserts es k → m.get k = stored es k

/-- All along the calls. -/
structure FiniteMap (es : List (Call κ ν)) : Prop where
  answers : ∀ {pre post m}, es = pre ++ post → Run Step new pre m → Answers pre m
  frame : ∀ {pre e post m m' k}, es = pre ++ e :: post → Run Step new pre m → Step m e m' →
    k ≠ e.key → m'.exists k = m.exists k ∧ m'.get k = m.get k

/-- The calls that a finite map would not tell from others. -/
def Sound (es : List (Call κ ν)) : Call κ ν → Prop
  | .insert k v => 0 < inserts es k → stored es k = some v
  | .assign k v => stored es k = some v
  | .rmkey k => inserts es k ≤ 1

instance [DecidableEq ν] (es : List (Call κ ν)) : (e : Call κ ν) → Decidable (Sound es e)
  | .insert k v => inferInstanceAs (Decidable (0 < inserts es k → stored es k = some v))
  | .assign k v => inferInstanceAs (Decidable (stored es k = some v))
  | .rmkey k => inferInstanceAs (Decidable (inserts es k ≤ 1))

/-! ### The other keys -/

variable {m m' : Map κ ν} {k k' : κ} {v : ν} {e : Call κ ν} {es : List (Call κ ν)}

theorem exists_eq_isSome (m : Map κ ν) (k : κ) : m.exists k = (m.get k).isSome := by
  rw [Bool.eq_iff_iff, exists_iff, get_eq_find, ← AssocVec.exists_find_iff, Option.isSome_iff_exists]

theorem step_assign (h : m.assign k v = some m') : m' = m ∧ ∃ x, m.get k = some x := by
  obtain ⟨x, hx, rfl⟩ := Option.map_eq_some_iff.mp h
  exact ⟨rfl, x, hx⟩

theorem get_frame (h : Step m e m') (hk : k ≠ e.key) : m'.get k = m.get k := by
  cases h with
  | insert k' v => rw [get_eq_find, get_eq_find]; exact AssocVec.find_append_of_ne hk
  | assign k' v h => rw [(step_assign h).1]
  | rmkey k' => rw [get_eq_find, get_eq_find, rmkey_entries]; exact AssocVec.find_erase_of_ne hk

theorem frame (h : Step m e m') (hk : k ≠ e.key) :
    m'.exists k = m.exists k ∧ m'.get k = m.get k := by
  rw [exists_eq_isSome, exists_eq_isSome, get_frame h hk]
  exact ⟨rfl, rfl⟩

/-! ### One more call -/

theorem inserts_insert (es : List (Call κ ν)) (k' : κ) (v : ν) (k : κ) :
    inserts (es ++ [.insert k' v]) k = if k' = k then inserts es k + 1 else inserts es k :=
  List.foldl_append

theorem inserts_assign (es : List (Call κ ν)) (k' : κ) (v : ν) (k : κ) :
    inserts (es ++ [.assign k' v]) k = inserts es k := List.foldl_append

theorem inserts_rmkey (es : List (Call κ ν)) (k' k : κ) :
    inserts (es ++ [.rmkey k']) k = if k' = k then 0 else inserts es k := List.foldl_append

theorem stored_insert (es : List (Call κ ν)) (k' : κ) (v : ν) (k : κ) :
    stored (es ++ [.insert k' v]) k = if k' = k then some v else stored es k := List.foldl_append

theorem stored_assign (es : List (Call κ ν)) (k' : κ) (v : ν) (k : κ) :
    stored (es ++ [.assign k' v]) k = if k' = k then some v else stored es k := List.foldl_append

theorem stored_rmkey (es : List (Call κ ν)) (k' k : κ) :
    stored (es ++ [.rmkey k']) k = stored es k := List.foldl_append

/-! ### The entries -/

/-- A key has an entry for every time it was inserted, and each of them has its value. -/
structure Tracks (es : List (Call κ ν)) (m : Map κ ν) : Prop where
  count : ∀ k, (AssocVec.keys m.entries).count k = inserts es k
  value : ∀ {k x}, (k, x) ∈ m.entries → stored es k = some x

theorem Tracks.inserts_pos {x : ν} (h : Tracks es m) (hx : (k, x) ∈ m.entries) :
    0 < inserts es k := by
  rw [← h.count]
  exact List.count_pos_iff.mpr (List.mem_map.mpr ⟨_, hx, rfl⟩)

theorem Tracks.answers (h : Tracks es m) : Answers es m where
  present k := by rw [exists_iff, ← h.count, List.count_pos_iff]
  value k hpos := by
    rw [← h.count, List.count_pos_iff, ← AssocVec.exists_find_iff] at hpos
    obtain ⟨x, hx⟩ := hpos
    rw [get_eq_find, hx, h.value (AssocVec.mem_of_find hx)]

/-- What a sound call keeps. -/
theorem Tracks.step (h : Tracks es m) (hs : Step m e m') (hsound : Sound es e) :
    Tracks (es ++ [e]) m' := by
  cases hs with
  | insert k v =>
      refine ⟨fun k' => ?_, fun {k' x} hx => ?_⟩
      · rw [inserts_insert, ← h.count, insert, AssocVec.keys, List.map_append, List.count_append]
        by_cases hk : k = k'
        · simp [hk, AssocVec.keys]
        · simp [hk, AssocVec.keys]
      · rw [stored_insert]
        rcases List.mem_append.mp hx with hx | hx
        · split
          · next hk =>
              subst hk
              exact (hsound (h.inserts_pos hx)).symm.trans (h.value hx)
          · exact h.value hx
        · cases List.mem_singleton.mp hx
          rw [if_pos rfl]
  | assign k v hassign =>
      obtain ⟨rfl, -⟩ := step_assign hassign
      refine ⟨fun k' => (h.count k').trans (inserts_assign ..).symm, fun {k' x} hx => ?_⟩
      rw [stored_assign]
      split
      · next hk =>
          subst hk
          exact hsound.symm.trans (h.value hx)
      · exact h.value hx
  | rmkey k =>
      refine ⟨fun k' => ?_, fun {k' x} hx => ?_⟩
      · rw [inserts_rmkey, rmkey_entries, AssocVec.keys_erase]
        split
        · next hk =>
            subst hk
            have hle : inserts es k ≤ 1 := hsound
            rw [List.count_erase_self, h.count]
            omega
        · next hk => rw [List.count_erase_of_ne (Ne.symm hk), h.count]
      · rw [stored_rmkey]
        rw [rmkey_entries] at hx
        exact h.value (List.eraseP_subset hx)

/-- A call that is not sound shows. -/
theorem Tracks.sound_of_answers (h : Tracks es m) (hs : Step m e m')
    (ha : Answers (es ++ [e]) m') : Sound es e := by
  cases hs with
  | insert k v =>
      intro hpos
      obtain ⟨x, hx⟩ : ∃ x, AssocVec.find m.entries k = some x := by
        rw [AssocVec.exists_find_iff, ← List.count_pos_iff, h.count]
        exact hpos
      have hget := ha.value k (by rw [inserts_insert, if_pos rfl]; exact Nat.succ_pos _)
      rw [get_eq_find, stored_insert, if_pos rfl, insert, AssocVec.find_append_of_some hx] at hget
      rw [h.value (AssocVec.mem_of_find hx), hget]
  | assign k v hassign =>
      obtain ⟨rfl, x, hx⟩ := step_assign hassign
      have hmem := AssocVec.mem_of_find ((get_eq_find ..).symm.trans hx)
      have hget := ha.value k (by rw [inserts_assign]; exact h.inserts_pos hmem)
      rw [hx, stored_assign, if_pos rfl] at hget
      exact (h.value hmem).trans hget
  | rmkey k =>
      have hgone : ¬ (m.rmkey k).exists k = true := by
        rw [ha.present, inserts_rmkey, if_pos rfl]
        exact Nat.lt_irrefl 0
      rw [exists_iff, rmkey_entries, AssocVec.keys_erase, ← List.count_pos_iff,
        List.count_erase_self, h.count] at hgone
      show inserts es k ≤ 1
      omega

/-! ### Whole sequences -/

theorem tracks_of_sound (hr : Run Step new es m) (h : Along Sound es) : Tracks es m := by
  refine hr.invHist (I := fun es m => Along Sound es → Tracks es m) (fun _ => ?_)
    (fun _ ih hs hall => ?_) h
  · exact ⟨fun _ => rfl, fun hx => by cases hx⟩
  · obtain ⟨hall, hsound⟩ := (along_concat_iff ..).mp hall
    exact (ih hall).step hs hsound

theorem sound_of_answers (hr : Run Step new es m)
    (ha : ∀ {pre post m}, es = pre ++ post → Run Step new pre m → Answers pre m) :
    Along Sound es := by
  induction hr with
  | nil => exact along_nil _
  | @snoc es m m' e hr hs ih =>
      have hall : Along Sound es := ih fun hpre => ha (by rw [hpre, List.append_assoc])
      refine (along_concat_iff ..).mpr ⟨hall, ?_⟩
      exact (tracks_of_sound hr hall).sound_of_answers hs
        (ha (List.append_nil _).symm (hr.snoc hs))

/-- **When a map is a finite map**: no call gives a key that has a value another one, and none
removes a key that was inserted twice. -/
theorem finiteMap_iff (hr : Run Step new es m) : FiniteMap es ↔ Along Sound es := by
  refine ⟨fun h => sound_of_answers hr h.answers, fun h => ⟨fun {pre post m} he hpre => ?_, ?_⟩⟩
  · refine (tracks_of_sound hpre fun pre' e post' he' => ?_).answers
    exact h pre' e (post' ++ post) (by rw [he, he', List.append_assoc, List.cons_append])
  · exact fun _ _ hs hk => frame hs hk

/-! ### A key that is given two values -/

/-- After `rmkey` a key may have another value. -/
theorem finiteMap_again : FiniteMap [.insert 1 'a', .rmkey 1, .insert 1 'b'] := by
  have hr : Run Step new [.insert 1 'a', .rmkey 1, .insert 1 'b']
      (((new.insert 1 'a').rmkey 1).insert 1 'b') :=
    ((Run.single (.insert 1 'a')).snoc (.rmkey 1)).snoc (.insert 1 'b')
  have hone : Along Sound [Call.insert 1 'a'] :=
    (along_concat_iff [] _).mpr ⟨along_nil _, by decide⟩
  have htwo : Along Sound [Call.insert 1 'a', .rmkey 1] :=
    (along_concat_iff [_] _).mpr ⟨hone, by decide⟩
  exact (finiteMap_iff hr).mpr ((along_concat_iff [_, _] _).mpr ⟨htwo, by decide⟩)

/-- `m[1] = 'b'` does not reach the map. -/
theorem not_finiteMap_assign : ∃ m : Map Nat Char, Run Step new [.insert 1 'a', .assign 1 'b'] m ∧
    m.get 1 = some 'a' ∧ ¬ FiniteMap [Call.insert 1 'a', .assign 1 'b'] := by
  have hassign : (new.insert 1 'a').assign 1 'b' = some (new.insert 1 'a') := rfl
  have hr : Run Step new [.insert 1 'a', .assign 1 'b'] (new.insert 1 'a') :=
    (Run.single (.insert 1 'a')).snoc (.assign 1 'b' hassign)
  refine ⟨_, hr, rfl, fun h => ?_⟩
  have hval := (h.answers (List.append_nil _).symm hr).value 1 (by decide)
  exact absurd hval (by decide)

end RivOS.Map
