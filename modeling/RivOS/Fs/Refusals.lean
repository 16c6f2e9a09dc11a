import Mathlib.Data.List.ReduceOption
import RivOS.Fs.Descriptors

/-!
# Fs — Descriptors that are not open

Runs of all the calls from an empty table, with no condition on what is closed or on how often
`open` is called: descriptors wrap around, and a failed open may leave an entry behind.  `write` and
`fileSize` ask whether the descriptor has an entry before they look it up; `read` and `close` do
not, and the look-up panics without one.

* `run_entries`: in every run the table's keys are distinct and every open descriptor has an entry.
* `handled_iff`: the four calls deal with a descriptor as they should exactly if it is 0 or open.
-/

namespace RivOS.FileSystem

open FileSystemDriver

universe u v

variable {μ : Type u} {δ : Type v} {drivers : μ → FileSystemDriver δ} {fs t : FileSystem μ δ}
  {fd : Int}

/-- Any call: `open` and `close` with what they did, and `none` for the others. -/
inductive Call (drivers : μ → FileSystemDriver δ) (fs : FileSystem μ δ) :
    Option (Event μ) → FileSystem μ δ → Prop where
  | step {e : Event μ} {t : FileSystem μ δ} (h : Step drivers fs e t) : Call drivers fs (some e) t
  | read {fd : Int} {len : Nat} {r : SuccessCodes × List UInt8} {t : FileSystem μ δ}
      (h : fs.read drivers fd len = some (r, t)) : Call drivers fs none t
  | write {fd : Int} {conts : List UInt8} {len : Nat} {r : SuccessCodes} {t : FileSystem μ δ}
      (h : fs.write drivers fd conts len = some (r, t)) : Call drivers fs none t

/-- The descriptors that are open after a history. -/
def openFds (es : List (Option (Event μ))) : List Int := AssocVec.keys (live es.reduceOption)

theorem openFds_none (es : List (Option (Event μ))) : openFds (es ++ [none]) = openFds es := by
  simp [openFds, List.reduceOption]

theorem openFds_some (es : List (Option (Event μ))) (e : Event μ) :
    openFds (es ++ [some e]) = AssocVec.keys (liveStep (live es.reduceOption) e) := by
  simp [openFds, List.reduceOption, live_concat]

/-! ### The table -/

/-- The keys are distinct, and every open descriptor is one of them. -/
structure Entries (opened : List Int) (t : FileSystem μ δ) : Prop where
  nodup : (AssocVec.keys t.fdMapping.entries).Nodup
  entry : ∀ fd ∈ opened, fd ≠ 0 ∧ t.fdMapping.exists fd = true

/-- A call that leaves the table. -/
theorem Entries.of_eq {opened : List Int} (h : Entries opened fs)
    (he : t.fdMapping = fs.fdMapping) : Entries opened t :=
  ⟨he ▸ h.nodup, he ▸ h.entry⟩

theorem read_fdMapping {len : Nat} {r : SuccessCodes × List UInt8}
    (h : fs.read drivers fd len = some (r, t)) : t.fdMapping = fs.fdMapping := by
  simp only [FileSystem.read] at h
  split at h
  · cases h
    rfl
  · obtain ⟨gf, -, e⟩ := Option.map_eq_some_iff.mp h
    cases e
    rfl

theorem write_fdMapping {conts : List UInt8} {len : Nat} {r : SuccessCodes}
    (h : fs.write drivers fd conts len = some (r, t)) : t.fdMapping = fs.fdMapping := by
  simp only [FileSystem.write] at h
  split at h
  · cases h
    rfl
  split at h
  · cases h
    rfl
  · obtain ⟨gf, -, e⟩ := Option.map_eq_some_iff.mp h
    cases e
    rfl

/-- An open leaves the table, or enters its own descriptor where that is new; what it returns is 0
or its own descriptor, which then has an entry. -/
theorem open_entries {fp : CStr} {fuel : Nat} (h : fs.open drivers fuel fp = some (fd, t)) :
    (t.fdMapping = fs.fdMapping ∨ ∃ gf, toFd fs.latestFd ∉ AssocVec.keys fs.fdMapping.entries ∧
        t.fdMapping.entries = fs.fdMapping.entries ++ [(toFd fs.latestFd, gf)]) ∧
      (fd ≠ 0 → t.fdMapping.exists fd = true) := by
  simp only [FileSystem.open] at h
  split at h
  · cases h
  · cases h
    exact ⟨.inl rfl, fun h0 => absurd rfl h0⟩
  · by_cases hx : fs.fdMapping.exists (toFd fs.latestFd) = true
    · rw [if_pos hx, Map.assign] at h
      obtain ⟨m, hm, e⟩ := Option.map_eq_some_iff.mp h
      obtain ⟨gf, -, rfl⟩ := Option.map_eq_some_iff.mp hm
      cases e
      refine ⟨.inl rfl, fun h0 => ?_⟩
      split at h0
      · next hf =>
          rw [if_pos hf]
          exact hx
      · exact absurd rfl h0
    · rw [if_neg hx] at h
      cases h
      refine ⟨.inr ⟨_, mt Map.exists_iff.mpr hx, rfl⟩, fun h0 => ?_⟩
      split at h0
      · next hf =>
          rw [if_pos hf, Map.exists_iff]
          simp [Map.insert, AssocVec.keys]
      · exact absurd rfl h0

/-- The entries of an open, but for the one it returns. -/
theorem Entries.open {opened : List Int} {fp : CStr} {fuel : Nat} (hs : Entries opened fs)
    (h : fs.open drivers fuel fp = some (fd, t)) : Entries opened t := by
  rcases (open_entries h).1 with he | ⟨gf, hnew, he⟩
  · exact hs.of_eq he
  · refine ⟨he ▸ AssocVec.nodup_concat hs.nodup hnew, fun k hk => ?_⟩
    obtain ⟨h0, hx⟩ := hs.entry k hk
    rw [Map.exists_iff] at hx ⊢
    rw [he, AssocVec.keys, List.map_append]
    exact ⟨h0, List.mem_append_left _ hx⟩

/-- Every call, whatever is closed and however many opens there were. -/
theorem Entries.call {es : List (Option (Event μ))} {e : Option (Event μ)}
    (hs : Entries (openFds es) fs) (h : Call drivers fs e t) : Entries (openFds (es ++ [e])) t := by
  cases h with
  | read h => exact openFds_none es ▸ hs.of_eq (read_fdMapping h)
  | write h => exact openFds_none es ▸ hs.of_eq (write_fdMapping h)
  | @step e t h =>
      rw [openFds_some]
      cases h with
      | failed h => exact hs.open h
      | opened hr h hfd =>
          refine ⟨(hs.open h).nodup, fun k hk => ?_⟩
          rw [liveStep, AssocVec.keys, List.map_append, List.mem_append] at hk
          rcases hk with hk | hk
          · exact (hs.open h).entry k hk
          · obtain rfl := List.mem_singleton.mp hk
            exact ⟨hfd, (open_entries h).2 hfd⟩
      | @closed fd t h =>
          have hlive : ∀ k ∈ AssocVec.keys (liveStep (live es.reduceOption) (.closed fd)),
              k ∈ openFds es ∧ k ≠ fd := by
            intro k hk
            obtain ⟨p, hp, rfl⟩ := List.mem_map.mp hk
            obtain ⟨hp, hne⟩ := List.mem_filter.mp hp
            exact ⟨List.mem_map_of_mem hp, by simpa using hne⟩
          rcases (close_table h).2 with ⟨-, he⟩ | ⟨-, he⟩
          · have hs' := hs.of_eq he
            exact ⟨hs'.nodup, fun k hk => hs'.entry k (hlive k hk).1⟩
          · refine ⟨he ▸ AssocVec.nodup_erase hs.nodup, fun k hk => ?_⟩
            obtain ⟨hopen, hne⟩ := hlive k hk
            obtain ⟨h0, hx⟩ := hs.entry k hopen
            rw [Map.exists_iff] at hx ⊢
            rw [he, AssocVec.keys_erase]
            exact ⟨h0, (List.mem_erase_of_ne hne).mpr hx⟩

theorem run_entries {es : List (Option (Event μ))} (hm : fs.fdMapping.entries = [])
    (r : Run (Call drivers) fs es t) : Entries (openFds es) t := by
  refine r.invHist (I := fun es t => Entries (openFds es) t) ?_ fun _ hs h => hs.call h
  exact ⟨by simp [hm, AssocVec.keys], by simp [openFds, List.reduceOption, live, AssocVec.keys]⟩

/-! ### The four calls -/

/-- Every call on `fd` returns; on a descriptor that is not open it fails and leaves the table. -/
structure Handled (drivers : μ → FileSystemDriver δ) (t : FileSystem μ δ) (opened : Prop)
    (fd : Int) : Prop where
  close : ∃ t', t.close drivers fd = some t' ∧ (¬ opened → t'.fdMapping = t.fdMapping)
  read : ∀ len, ∃ r t', t.read drivers fd len = some (r, t') ∧
    (¬ opened → r.1 = .Error ∧ t'.fdMapping = t.fdMapping)
  write : ∀ conts len, ∃ r t', t.write drivers fd conts len = some (r, t') ∧
    (¬ opened → r = .Error ∧ t'.fdMapping = t.fdMapping)
  fileSize : ∃ n, t.fileSize fd = some n ∧ (¬ opened → n = 0)

theorem handled_zero (opened : Prop) : Handled drivers t opened 0 where
  close := ⟨t, if_pos rfl, fun _ => rfl⟩
  read _ := ⟨_, t, if_pos rfl, fun _ => ⟨rfl, rfl⟩⟩
  write _ _ := ⟨.Error, t, if_pos rfl, fun _ => ⟨rfl, rfl⟩⟩
  fileSize := ⟨0, if_pos rfl, fun _ => rfl⟩

theorem handled_open {opened : Prop} (ho : opened) (h0 : fd ≠ 0)
    (hx : t.fdMapping.exists fd = true) : Handled drivers t opened fd := by
  obtain ⟨gf, hgf⟩ : ∃ gf, t.fdMapping.get fd = some gf := by
    rw [Map.exists_iff] at hx
    refine Option.ne_none_iff_exists'.mp fun hnone => ?_
    rw [Map.get_eq_find] at hnone
    exact AssocVec.find_eq_none_iff.mp hnone hx
  have hd : Denotes drivers t fd gf := denotes_of_entry h0 hgf
  exact ⟨⟨_, hd.close, fun hn => absurd ho hn⟩,
    fun len => ⟨_, _, hd.read len, fun hn => absurd ho hn⟩,
    fun conts len => ⟨_, _, hd.write conts len, fun hn => absurd ho hn⟩,
    ⟨_, hd.fileSize, fun hn => absurd ho hn⟩⟩

/-- A descriptor without an entry: the look-up of `close` panics; with one, `close` takes it out. -/
theorem close_changes (h0 : fd ≠ 0) (hnodup : (AssocVec.keys t.fdMapping.entries).Nodup)
    {t' : FileSystem μ δ} (h : t.close drivers fd = some t') : t'.fdMapping ≠ t.fdMapping := by
  intro he
  rcases (close_table h).2 with ⟨hz, -⟩ | ⟨-, herase⟩
  · exact h0 hz
  · simp only [FileSystem.close, if_neg h0] at h
    obtain ⟨gf, hgf, -⟩ := Option.map_eq_some_iff.mp h
    rw [he] at herase
    have hfind : AssocVec.find t.fdMapping.entries fd = none := by
      rw [herase, AssocVec.find_erase hnodup, if_pos rfl]
    rw [Map.get_eq_find, hfind] at hgf
    cases hgf

/-- **Which descriptors the four calls deal with**: 0, and those that are open. -/
theorem handled_iff (mountpoints : List (MountPointEntry μ)) (latestFd : Nat) (drv : δ)
    {es : List (Option (Event μ))} (r : Run (Call drivers) ⟨mountpoints, latestFd, ⟨[]⟩, drv⟩ es t)
    (fd : Int) :
    Handled drivers t (fd ∈ openFds es) fd ↔ fd = 0 ∨ fd ∈ openFds es := by
  have hentries := run_entries rfl r
  constructor
  · intro h
    by_contra hno
    obtain ⟨h0, hclosed⟩ := not_or.mp hno
    obtain ⟨t', hclose, hsame⟩ := h.close
    exact close_changes h0 hentries.nodup hclose (hsame hclosed)
  · rintro (rfl | hopen)
    · exact handled_zero _
    · obtain ⟨h0, hx⟩ := hentries.entry fd hopen
      exact handled_open hopen h0 hx

/-- A file is opened, and its descriptor used. -/
theorem handled_opened :
    Handled (fun _ => rootDriver) ⟨[⟨.lit ['/'], ()⟩], 2, ⟨[(1, ⟨⟨0, 4, true⟩, ()⟩)]⟩, ()⟩
      (1 ∈ openFds [some (.opened 1 ⟨⟨0, 4, true⟩, ()⟩)]) 1 := by
  have hopen : FileSystem.open (fun _ => rootDriver) 1 ⟨[⟨.lit ['/'], ()⟩], 1, ⟨[]⟩, ()⟩
      (.lit ['/', 'a']) = some (1, ⟨[⟨.lit ['/'], ()⟩], 2, ⟨[(1, ⟨⟨0, 4, true⟩, ()⟩)]⟩, ()⟩) := rfl
  have hstep : Step (fun _ => rootDriver) ⟨[⟨.lit ['/'], ()⟩], 1, ⟨[]⟩, ()⟩
      (.opened 1 ⟨⟨0, 4, true⟩, ()⟩)
      ⟨[⟨.lit ['/'], ()⟩], 2, ⟨[(1, ⟨⟨0, 4, true⟩, ()⟩)]⟩, ()⟩ := .opened rfl hopen (by decide)
  exact (handled_iff _ _ _ (.single (.step hstep)) 1).mpr (.inr (by decide))

/-- A descriptor that was never opened: the look-up of `read` panics. -/
theorem handled_never_opened :
    ¬ Handled (fun _ => rootDriver) ⟨[⟨.lit ['/'], ()⟩], 1, ⟨[]⟩, ()⟩
      (7 ∈ openFds ([] : List (Option (Event Unit)))) 7 := by
  intro h
  obtain ⟨r, t, hread, -⟩ := h.read 1
  cases hread

end RivOS.FileSystem
