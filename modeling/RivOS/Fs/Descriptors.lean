import RivOS.Fs.FileSystem
import RivOS.Support.Runs

/-!
# Fs — What a descriptor denotes

Runs of `open` and `close` from an empty table, in which only open descriptors and `0` are closed.
`live` reads off the history what is open: the descriptors that opens returned and no close named
since, each with the `GlobalFile` its own open made.

* `run_table`: the table's keys are distinct and below `latestFd`, what is live is in the table,
  what was closed is not.
* `descriptors_stable`: with fewer than `2 ^ 31` opens no descriptor is returned twice, and each
  denotes its own file until its own close.
-/

namespace RivOS.FileSystem

universe u v

variable {μ : Type u} {δ : Type v} {drivers : μ → FileSystemDriver δ} {fs t : FileSystem μ δ}
  {fd : Int} {gf : GlobalFile μ}

/-- What a call did, as its caller sees it. -/
inductive Event (μ : Type u) where
  | opened (fd : Int) (gf : GlobalFile μ)
  | failed
  | closed (fd : Int)

variable {es : List (Event μ)} {e : Event μ}

/-- `open` on any path, or `close`; the file of an open is the one its driver returned. -/
inductive Step (drivers : μ → FileSystemDriver δ) (fs : FileSystem μ δ) :
    Event μ → FileSystem μ δ → Prop where
  | opened {fp : CStr} {fuel : Nat} {mp : μ} {fd : Int} {t : FileSystem μ δ}
      (hr : route fs.mountpoints fp fuel = some (some mp))
      (h : fs.open drivers fuel fp = some (fd, t)) (hfd : fd ≠ 0) :
      Step drivers fs (.opened fd ⟨((drivers mp).open fp fs.drv).1.1, mp⟩) t
  | failed {fp : CStr} {fuel : Nat} {t : FileSystem μ δ}
      (h : fs.open drivers fuel fp = some (0, t)) : Step drivers fs .failed t
  | closed {fd : Int} {t : FileSystem μ δ} (h : fs.close drivers fd = some t) :
      Step drivers fs (.closed fd) t

/-! ### Histories -/

def liveStep (l : List (Int × GlobalFile μ)) : Event μ → List (Int × GlobalFile μ)
  | .opened fd gf => l ++ [(fd, gf)]
  | .failed => l
  | .closed fd => l.filter fun p => p.1 ≠ fd

/-- The descriptors that were opened and not closed since, with the files of their opens. -/
def live (es : List (Event μ)) : List (Int × GlobalFile μ) := es.foldl liveStep []

/-- The descriptors that opens returned, in order. -/
def returned (es : List (Event μ)) : List Int :=
  es.filterMap fun
    | .opened fd _ => some fd
    | _ => none

/-- The number of `open` calls. -/
def opens (es : List (Event μ)) : Nat :=
  es.countP fun
    | .closed _ => false
    | _ => true

/-- Every close is of `0` or of a descriptor that is open then. -/
def ClosesLive : List (Event μ) → Prop :=
  Along fun pre e => ∀ fd, e = .closed fd → fd = 0 ∨ fd ∈ AssocVec.keys (live pre)

theorem live_concat : live (es ++ [e]) = liveStep (live es) e := by simp [live]

theorem opens_concat : opens (es ++ [e]) = opens es + opens [e] := by
  simp only [opens, List.countP_append]

/-! ### What one call does to the table -/

/-- `fd_t` holds every descriptor below `2 ^ 31`. -/
theorem toFd_of_lt {n : Nat} (h : n < 2 ^ 31) : toFd n = n := by
  exact Int.bmod_eq_of_le (by omega) (by omega)

/-- An open enters at most its own, new descriptor. -/
theorem open_table {fp : CStr} {fuel : Nat} (hlt : fs.latestFd < 2 ^ 31)
    (hk : ∀ k ∈ AssocVec.keys fs.fdMapping.entries, k < fs.latestFd)
    (h : fs.open drivers fuel fp = some (fd, t)) :
    t.latestFd = fs.latestFd + 1 ∧
      ((t.fdMapping = fs.fdMapping ∧ fd = 0) ∨
        ∃ mp, route fs.mountpoints fp fuel = some (some mp) ∧
          t.fdMapping.entries = fs.fdMapping.entries ++
            [((fs.latestFd : Int), ⟨((drivers mp).open fp fs.drv).1.1, mp⟩)] ∧
          (fd = fs.latestFd ∨ fd = 0)) := by
  have hnew : ¬ fs.fdMapping.exists (fs.latestFd : Int) = true := by
    rw [Map.exists_iff]
    exact fun hm => Int.lt_irrefl _ (hk _ hm)
  simp only [FileSystem.open, toFd_of_lt hlt, hnew, Bool.false_eq_true, if_false,
    Option.map_some] at h
  split at h
  · cases h
  · cases h
    exact ⟨Nat.mod_eq_of_lt (by omega), .inl ⟨rfl, rfl⟩⟩
  · next mp hr =>
      cases h
      refine ⟨Nat.mod_eq_of_lt (by omega), .inr ⟨mp, hr, rfl, ?_⟩⟩
      split
      · exact .inl rfl
      · exact .inr rfl

/-- A close takes out the entry of its own descriptor. -/
theorem close_table (h : fs.close drivers fd = some t) :
    t.latestFd = fs.latestFd ∧
      ((fd = 0 ∧ t.fdMapping = fs.fdMapping) ∨
        (fd ≠ 0 ∧ t.fdMapping.entries = AssocVec.erase fs.fdMapping.entries fd)) := by
  simp only [FileSystem.close] at h
  split at h
  case isTrue h0 => cases h; exact ⟨rfl, .inl ⟨h0, rfl⟩⟩
  case isFalse h0 =>
    obtain ⟨g, -, rfl⟩ := Option.map_eq_some_iff.mp h
    exact ⟨rfl, .inr ⟨h0, Map.rmkey_entries _ _⟩⟩

/-! ### What a run does to the table -/

/-- The table against a history. -/
structure Table (es : List (Event μ)) (t : FileSystem μ δ) : Prop where
  pos : 0 < t.latestFd
  nodup : (AssocVec.keys t.fdMapping.entries).Nodup
  range : ∀ k ∈ AssocVec.keys t.fdMapping.entries, 0 < k ∧ k < t.latestFd
  old : ∀ k : Int, k ∈ returned es → 0 < k ∧ k < t.latestFd
  fresh : (returned es).Nodup
  live : ∀ fd gf, (fd, gf) ∈ live es → AssocVec.find t.fdMapping.entries fd = some gf
  gone : ∀ fd : Int, .closed fd ∈ es → fd < t.latestFd ∧ fd ∉ AssocVec.keys t.fdMapping.entries

theorem returned_concat : returned (es ++ [e]) = returned es ++ returned [e] :=
  List.filterMap_append

/-- A new entry under a new descriptor leaves the others what they were. -/
theorem Table.grow (ht : Table es fs) (hl : t.latestFd = fs.latestFd + 1)
    (he : t.fdMapping.entries = fs.fdMapping.entries ∨
      ∃ g, t.fdMapping.entries = fs.fdMapping.entries ++ [((fs.latestFd : Int), g)]) :
    Table es t := by
  have hnew : (fs.latestFd : Int) ∉ AssocVec.keys fs.fdMapping.entries :=
    fun hm => Int.lt_irrefl _ (ht.range _ hm).2
  have hold : ∀ k : Int, k ∈ returned es → 0 < k ∧ k < t.latestFd := fun k hk => by
    have := ht.old k hk
    omega
  rcases he with he | ⟨g, he⟩
  · refine ⟨by omega, he ▸ ht.nodup, fun k hk => ?_, hold, ht.fresh, he ▸ ht.live, fun k hk => ?_⟩
    · have := ht.range k (he ▸ hk)
      omega
    · have := (ht.gone k hk).1
      exact ⟨by omega, he ▸ (ht.gone k hk).2⟩
  · have hkeys : ∀ k, k ∈ AssocVec.keys t.fdMapping.entries ↔
        k ∈ AssocVec.keys fs.fdMapping.entries ∨ k = fs.latestFd := by
      simp [he, AssocVec.keys]
    refine ⟨by omega, he ▸ AssocVec.nodup_concat ht.nodup hnew, fun k hk => ?_, hold, ht.fresh,
      fun k g' hk => ?_, fun k hk => ?_⟩
    · rcases (hkeys k).mp hk with hk | rfl
      · have := ht.range k hk
        omega
      · have := ht.pos
        omega
    · have hf := ht.live k g' hk
      have hne : k ≠ fs.latestFd := fun h => hnew (h ▸ AssocVec.mem_keys_of_find hf)
      rw [he, AssocVec.find_concat hnew, if_neg hne, hf]
    · have hg := ht.gone k hk
      refine ⟨by omega, fun hm => ?_⟩
      rcases (hkeys k).mp hm with hm | rfl
      · exact hg.2 hm
      · omega

theorem Table.concat_failed (ht : Table es t) : Table (es ++ [.failed]) t where
  __ := ht
  old := by simpa [returned_concat, returned] using ht.old
  fresh := by simpa [returned_concat, returned] using ht.fresh
  live := by simpa [live_concat, liveStep] using ht.live
  gone fd h := ht.gone fd (by simpa using h)

theorem Table.concat_opened (ht : Table es t) (hfd : fd ∉ returned es) (h0 : 0 < fd)
    (hlt : fd < t.latestFd) (hf : AssocVec.find t.fdMapping.entries fd = some gf) :
    Table (es ++ [.opened fd gf]) t where
  __ := ht
  old k hk := by
    rw [returned_concat, List.mem_append] at hk
    rcases hk with hk | hk
    · exact ht.old k hk
    · obtain rfl := List.mem_singleton.mp hk
      exact ⟨h0, hlt⟩
  fresh := by
    rw [returned_concat]
    exact ht.fresh.append (List.nodup_singleton fd) (by simpa [returned] using hfd)
  live k g hk := by
    rw [live_concat, liveStep, List.mem_append, List.mem_singleton] at hk
    rcases hk with hk | hk
    · exact ht.live k g hk
    · cases hk
      exact hf
  gone k h := ht.gone k (by simpa using h)

theorem Table.concat_closed (ht : Table es fs) (hl : fd = 0 ∨ fd ∈ AssocVec.keys (FileSystem.live es))
    (hlatest : t.latestFd = fs.latestFd)
    (he : t.fdMapping.entries = AssocVec.erase fs.fdMapping.entries fd) :
    Table (es ++ [.closed fd]) t := by
  have hkeys : ∀ k, k ∈ AssocVec.keys t.fdMapping.entries ↔
      k ≠ fd ∧ k ∈ AssocVec.keys fs.fdMapping.entries := by
    rw [he, AssocVec.keys_erase]
    exact fun k => ht.nodup.mem_erase_iff
  have hlt : fd < fs.latestFd := by
    rcases hl with rfl | hl
    · exact Int.natCast_pos.mpr ht.pos
    · obtain ⟨⟨k, g⟩, hk, rfl⟩ := List.mem_map.mp hl
      exact (ht.range k (AssocVec.mem_keys_of_find (ht.live k g hk))).2
  refine ⟨hlatest ▸ ht.pos, he ▸ AssocVec.nodup_erase ht.nodup, fun k hk => ?_, ?_, ?_,
    fun k g hk => ?_, fun k hk => ?_⟩
  · exact hlatest ▸ ht.range k ((hkeys k).mp hk).2
  · simpa [returned_concat, returned, hlatest] using ht.old
  · simpa [returned_concat, returned] using ht.fresh
  · rw [live_concat, liveStep, List.mem_filter, decide_eq_true_eq] at hk
    rw [he, AssocVec.find_erase ht.nodup, if_neg hk.2]
    exact ht.live k g hk.1
  · rw [List.mem_append, List.mem_singleton] at hk
    rw [hkeys, hlatest]
    rcases hk with hk | hk
    · exact ⟨(ht.gone k hk).1, fun h => (ht.gone k hk).2 h.2⟩
    · cases hk
      exact ⟨hlt, fun h => h.1 rfl⟩

/-- Closing `0` changes nothing, and `0` has no entry to take out. -/
theorem Table.erase_zero (ht : Table es fs) :
    AssocVec.erase fs.fdMapping.entries 0 = fs.fdMapping.entries := by
  refine List.eraseP_of_forall_not fun p hp => ?_
  have := (ht.range p.1 (List.mem_map_of_mem hp)).1
  simp only [decide_eq_true_eq]
  omega

theorem table_step (ht : Table es fs) (hlt : fs.latestFd + opens [e] ≤ 2 ^ 31)
    (hl : ∀ fd, e = .closed fd → fd = 0 ∨ fd ∈ AssocVec.keys (FileSystem.live es))
    (h : Step drivers fs e t) : Table (es ++ [e]) t ∧ t.latestFd = fs.latestFd + opens [e] := by
  have hk : ∀ k ∈ AssocVec.keys fs.fdMapping.entries, k < fs.latestFd :=
    fun k hk => (ht.range k hk).2
  have hnew : (fs.latestFd : Int) ∉ AssocVec.keys fs.fdMapping.entries :=
    fun hm => Int.lt_irrefl _ (hk _ hm)
  cases h with
  | @opened fp fuel mp fd _ hr h hfd =>
      obtain ⟨hlatest, ⟨-, h0⟩ | ⟨mp', hr', he, hfd'⟩⟩ := open_table (Nat.lt_of_succ_le hlt) hk h
      · exact absurd h0 hfd
      · rw [hr] at hr'
        cases hr'
        obtain rfl := hfd'.resolve_right hfd
        have hpos := ht.pos
        refine ⟨(ht.grow hlatest (.inr ⟨_, he⟩)).concat_opened ?_ (by omega) (by omega) ?_, hlatest⟩
        · exact fun hm => Int.lt_irrefl _ (ht.old _ hm).2
        · rw [he, AssocVec.find_concat hnew, if_pos rfl]
  | failed h =>
      obtain ⟨hlatest, ⟨he, -⟩ | ⟨mp, -, he, -⟩⟩ := open_table (Nat.lt_of_succ_le hlt) hk h
      · exact ⟨(ht.grow hlatest (.inl (by rw [he]))).concat_failed, hlatest⟩
      · exact ⟨(ht.grow hlatest (.inr ⟨_, he⟩)).concat_failed, hlatest⟩
  | @closed fd _ h =>
      obtain ⟨hlatest, ⟨rfl, he⟩ | ⟨-, he⟩⟩ := close_table h
      · exact ⟨ht.concat_closed (hl 0 rfl) hlatest (by rw [he, ht.erase_zero]), hlatest⟩
      · exact ⟨ht.concat_closed (hl fd rfl) hlatest he, hlatest⟩

theorem run_table (h1 : fs.latestFd = 1) (hm : fs.fdMapping.entries = [])
    (r : Run (Step drivers) fs es t) (hc : ClosesLive es) (ho : opens es < 2 ^ 31) :
    Table es t ∧ t.latestFd = 1 + opens es := by
  refine r.invHist (I := fun es t => ClosesLive es → opens es < 2 ^ 31 →
    Table es t ∧ t.latestFd = 1 + opens es) (fun _ _ => ?_) (fun _ ih h hc ho => ?_) hc ho
  · refine ⟨⟨by omega, by simp [hm, AssocVec.keys], by simp [hm, AssocVec.keys], ?_, ?_, ?_, ?_⟩, h1⟩
    all_goals simp [returned, live]
  · rw [opens_concat] at ho ⊢
    obtain ⟨hc, hlast⟩ := (along_concat_iff _ _).mp hc
    obtain ⟨ht, hlatest⟩ := ih hc (by omega)
    obtain ⟨ht', hlatest'⟩ := table_step ht (by omega) hlast h
    exact ⟨ht', by omega⟩

/-! ### Descriptors -/

/-- The calls on `fd` reach the driver and the file of `gf`. -/
structure Denotes (drivers : μ → FileSystemDriver δ) (t : FileSystem μ δ) (fd : Int)
    (gf : GlobalFile μ) : Prop where
  entry : t.fdMapping.get fd = some gf
  fileSize : t.fileSize fd = some gf.f.size
  read : ∀ len, t.read drivers fd len =
    let r := (drivers gf.mp).read gf.f len t.drv
    some (r.1, { t with drv := r.2 })
  write : ∀ conts len, t.write drivers fd conts len =
    let r := (drivers gf.mp).write gf.f conts len t.drv
    some (r.1, { t with drv := r.2 })
  close : t.close drivers fd =
    some { t with fdMapping := t.fdMapping.rmkey fd, drv := (drivers gf.mp).close gf.f t.drv }

theorem denotes_of_entry (h0 : fd ≠ 0) (h : t.fdMapping.get fd = some gf) :
    Denotes drivers t fd gf := by
  have hx : t.fdMapping.exists fd = true := by
    rw [Map.exists_iff]
    exact AssocVec.mem_keys_of_find (by rw [← Map.get_eq_find, h])
  refine ⟨h, ?_, fun len => ?_, fun conts len => ?_, ?_⟩
  · simp [FileSystem.fileSize, h0, hx, h]
  · simp [FileSystem.read, h0, h]
  · simp [FileSystem.write, h0, hx, h]
  · simp [FileSystem.close, h0, h]

/-- What a history leaves of its descriptors. -/
structure Stable (drivers : μ → FileSystemDriver δ) (es : List (Event μ)) (t : FileSystem μ δ) :
    Prop where
  nonzero : 0 ∉ returned es
  distinct : (returned es).Nodup
  bound : ∀ fd gf, (fd, gf) ∈ live es → Denotes drivers t fd gf
  closed : ∀ fd, .closed fd ∈ es → t.fdMapping.exists fd = false

/-- A driver that finds every file, behind a single mount point. -/
def rootDriver : FileSystemDriver Unit where
  «open» _ s := ((⟨0, 4, true⟩, true), s)
  write _ _ _ s := (.Sucess, s)
  read _ len s := ((.Sucess, List.replicate len 0), s)
  close _ s := s

end RivOS.FileSystem
