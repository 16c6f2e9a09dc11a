import RivOS.Fs.FileSystem
import RivOS.Support.LastMax

/-!
# Fs — Which mount point gets a path

The second loop of `open` keeps the last mount point of greatest nesting among those that match
(`select_eq_lastMax`); the right one is the last of greatest length among those whose name is a
prefix of the path (`Longest`).  Among prefixes of one path that end in `'/'` the two orders agree
(`longest_iff`).

What matches is more than the prefixes: `mountPointMatches` accepts every name longer than the
path (`mountPointMatches_iff`).  `Unshadowed` says that none of those beats the right one, and
`open_routes_iff` that `open` routes correctly exactly then.
-/

namespace RivOS.FileSystem

universe u v

variable {μ : Type u} {δ : Type v} {mps : List (MountPointEntry μ)} {fp mp : CStr}
  {e : MountPointEntry μ} {i : Nat}

/-- Mount points whose names end in `'/'`, one of them `"/"`; a vector's `len` is a `u32`. -/
structure MountTable (mps : List (MountPointEntry μ)) : Prop where
  slashed : ∀ e ∈ mps, e.k.chars.getLast? = some slash
  root : ∃ e ∈ mps, e.k.chars = [slash]
  len : mps.length < 2 ^ 32

/-- `fp` begins with the name of `e`. -/
def named (fp : CStr) (e : MountPointEntry μ) : Bool := e.k.chars.isPrefixOf fp.chars

/-- The mount point at `i` has the longest name that is a prefix of `fp`, and is the last such. -/
def Longest (mps : List (MountPointEntry μ)) (fp : CStr) (i : Nat) (e : MountPointEntry μ) : Prop :=
  IsLastMax (named fp) (fun e => strlen e.k) mps i e

/-- `open` returns, and it has handed `fp` to the driver of the longest matching mount point. -/
def Routes (drivers : μ → FileSystemDriver δ) (fs : FileSystem μ δ) (fp : CStr) : Prop :=
  ∃ i e, Longest fs.mountpoints fp i e ∧ ∃ n, ∀ fuel ≥ n,
    route fs.mountpoints fp fuel = some (some e.v) ∧
      ∃ fd fs', fs.open drivers fuel fp = some (fd, fs') ∧
        fs'.drv = ((drivers e.v).open fp fs.drv).2

/-- Every mount point of another driver with a name longer than the path is behind one of the right
driver that passes the test: it has fewer slashes, or as many and an earlier place. -/
def Unshadowed (mps : List (MountPointEntry μ)) (fp : CStr) : Prop :=
  ∃ i e, Longest mps fp i e ∧
    ∀ j (e' : MountPointEntry μ), mps[j]? = some e' → strlen fp < strlen e'.k → e'.v ≠ e.v →
      ∃ (k : Nat) (b : MountPointEntry μ), mps[k]? = some b ∧ b.v = e.v ∧
        (named fp b = true ∨ strlen fp < strlen b.k) ∧
        (getFolderNestage e'.k < getFolderNestage b.k ∨
          (getFolderNestage e'.k = getFolderNestage b.k ∧ j < k))

/-! ### The test -/

theorem charAt_eq_getElem {l : List UInt8} {i : Nat} (h : i < l.length) : charAt l i = l[i] := by
  simp [charAt, List.getD_eq_getElem?_getD, h]

/-- A name passes the test when it is a prefix of the path, or longer than the path. -/
theorem mountPointMatches_iff :
    mountPointMatches mp fp = true ↔ mp.chars <+: fp.chars ∨ strlen fp < strlen mp := by
  have step : ∀ i, (!(decide (strlen fp ≥ strlen mp) &&
      decide (charAt mp.chars i ≠ charAt fp.chars i))) = true ↔
        strlen fp < strlen mp ∨ charAt mp.chars i = charAt fp.chars i := by
    intro i
    by_cases h₁ : strlen fp < strlen mp <;>
      by_cases h₂ : charAt mp.chars i = charAt fp.chars i <;> simp [h₁, h₂]
  simp only [mountPointMatches, List.all_eq_true, List.mem_range, step]
  constructor
  · intro h
    by_cases hlen : strlen fp < strlen mp
    · exact .inr hlen
    · refine .inl (List.prefix_iff_getElem?.mpr fun i hi => ?_)
      have hi' : i < fp.chars.length := Nat.lt_of_lt_of_le hi (Nat.le_of_not_lt hlen)
      have hc := (h i hi).resolve_left hlen
      rw [charAt_eq_getElem hi, charAt_eq_getElem hi'] at hc
      rw [List.getElem?_eq_getElem hi', hc]
  · rintro (h | h) i hi
    · have hi' : i < fp.chars.length := Nat.lt_of_lt_of_le hi h.length_le
      refine .inr ?_
      rw [charAt_eq_getElem hi, charAt_eq_getElem hi', h.getElem hi]
    · exact .inl h

theorem named_iff : named fp e = true ↔ e.k.chars <+: fp.chars := List.isPrefixOf_iff_prefix

theorem one_le_nestage (h : mp.chars.getLast? = some slash) : 1 ≤ getFolderNestage mp := by
  rw [getFolderNestage, Nat.succ_le_iff, List.count_pos_iff]
  exact List.mem_of_getLast? h

/-- Of two prefixes of a path the longer has more slashes, if it ends in one. -/
theorem nestage_lt_of_strlen_lt {a b : CStr} (ha : a.chars <+: fp.chars)
    (hb : b.chars <+: fp.chars) (hs : b.chars.getLast? = some slash) (h : strlen a < strlen b) :
    getFolderNestage a < getFolderNestage b := by
  obtain ⟨t, ht⟩ := List.prefix_of_prefix_length_le ha hb (Nat.le_of_lt h)
  have hne : t ≠ [] := by
    rintro rfl
    rw [List.append_nil] at ht
    exact absurd h (by simp [strlen, ht])
  have hlast : t.getLast? = some slash := by
    rwa [← ht, List.getLast?_append_of_ne_nil _ hne] at hs
  have hpos : 0 < t.count slash := List.count_pos_iff.mpr (List.mem_of_getLast? hlast)
  rw [getFolderNestage, getFolderNestage, ← ht, List.count_append]
  omega

theorem nestage_cmp {a b : CStr} (ha : a.chars <+: fp.chars) (hb : b.chars <+: fp.chars)
    (hsa : a.chars.getLast? = some slash) (hsb : b.chars.getLast? = some slash) :
    (getFolderNestage a < getFolderNestage b ↔ strlen a < strlen b) ∧
      (getFolderNestage a = getFolderNestage b ↔ strlen a = strlen b) := by
  rcases Nat.lt_trichotomy (strlen a) (strlen b) with h | h | h
  · have := nestage_lt_of_strlen_lt ha hb hsb h
    omega
  · have : a = b := CStr.ext ((List.prefix_of_prefix_length_le ha hb (Nat.le_of_eq h)).eq_of_length h)
    subst this
    simp
  · have := nestage_lt_of_strlen_lt hb ha hsa h
    omega

/-- By length or by nesting, the right mount point is the same. -/
theorem longest_iff (ht : MountTable mps) :
    Longest mps fp i e ↔ IsLastMax (named fp) (fun e => getFolderNestage e.k) mps i e := by
  refine and_congr_right fun hi => and_congr_right fun hn => forall_congr' fun j =>
    forall_congr' fun e' => forall_congr' fun hj => forall_congr' fun hn' => ?_
  obtain ⟨hlt, heq⟩ := nestage_cmp (named_iff.mp hn') (named_iff.mp hn)
    (ht.slashed e' (List.mem_of_getElem? hj)) (ht.slashed e (List.mem_of_getElem? hi))
  rw [hlt, heq]

/-! ### The two loops -/

/-- The first loop ends at the first match, if there is one. -/
theorem matchLoop_some {j : Nat} {e : MountPointEntry μ} (hj : mps[j]? = some e)
    (hm : mountPointMatches e.k fp = true) :
    ∀ fuel i, i ≤ j → j - i < fuel → ∃ i' ≤ j, matchLoop mps fp fuel i = some i'
  | 0, _, _, h => absurd h (Nat.not_lt_zero _)
  | fuel + 1, i, hij, h => by
      have hlen : j < mps.length := (List.getElem?_eq_some_iff.mp hj).1
      rw [matchLoop, List.getElem?_eq_getElem (by omega)]
      by_cases hmi : mountPointMatches mps[i].k fp = true
      · exact ⟨i, hij, by simp [hmi]⟩
      · have hne : i ≠ j := by
          rintro rfl
          rw [List.getElem?_eq_getElem hlen] at hj
          exact hmi (Option.some.inj hj ▸ hm)
        simp only [hmi, if_neg (show ¬ i = mps.length - 1 by omega), Bool.false_eq_true, if_false]
        exact matchLoop_some hj hm fuel (i + 1) (by omega) (by omega)

/-- The second loop is a scan for the last match of greatest nesting. -/
theorem select_eq_lastMax (hs : ∀ e ∈ mps, 1 ≤ getFolderNestage e.k) :
    mps.foldl (Selection.next fp) ⟨none, 0, 0⟩ =
      let best := lastMax (fun e => mountPointMatches e.k fp) (fun e => getFolderNestage e.k) mps
      ⟨best.map (·.v), (best.map fun e => getFolderNestage e.k).getD 0, 0⟩ := by
  induction mps using List.reverseRecOn with
  | nil => rfl
  | append_singleton l e ih =>
      have he := hs e (by simp)
      have hlen : 0 < strlen e.k := Nat.lt_of_lt_of_le he List.count_le_length
      rw [List.foldl_append, ih fun e h => hs e (List.mem_append_left _ h), lastMax_concat]
      simp only [List.foldl_cons, List.foldl_nil, Selection.next, lastMaxStep]
      cases lastMax (fun e => mountPointMatches e.k fp) (fun e => getFolderNestage e.k) l with
      | none =>
          by_cases hm : mountPointMatches e.k fp = true
          · simp [hm]; omega
          · simp [hm]
      | some b =>
          by_cases hm : mountPointMatches e.k fp = true
          · rcases Nat.lt_trichotomy (getFolderNestage e.k) (getFolderNestage b.k) with h | h | h
            · simp [hm, Nat.not_le_of_lt h, Nat.lt_asymm h, Nat.ne_of_lt h]
            · simp [hm, h, hlen]
            · simp [hm, h, Nat.le_of_lt h]
          · simp [hm]

/-! ### The table of `init` -/

theorem init_mountTable {cands : List (MountPointCandidate μ)} {shouldActivate : μ → Bool}
    (hs : ∀ c ∈ cands, c.mp.chars.getLast? = some slash) (hlen : cands.length < 2 ^ 32)
    (h : init cands shouldActivate = some mps) : MountTable mps := by
  simp only [init] at h
  split at h
  case isFalse => cases h
  case isTrue hroot =>
    cases h
    obtain ⟨e, he, hk⟩ := List.any_eq_true.mp hroot
    refine ⟨fun e he => ?_, ⟨e, he, ?_⟩, ?_⟩
    · obtain ⟨c, hc, rfl⟩ := List.mem_map.mp he
      exact hs c (List.mem_filter.mp hc).1
    · rw [streq_iff.mp hk]; rfl
    · rw [List.length_map]
      exact Nat.lt_of_le_of_lt (List.length_filter_le _ _) hlen

theorem mpCandidates_slashed {a b c d e : μ} :
    ∀ m ∈ mpCandidates a b c d e, m.mp.chars.getLast? = some slash := by
  simp only [mpCandidates, List.forall_mem_cons, List.not_mem_nil, false_implies, implies_true,
    and_true]
  exact ⟨rfl, rfl, rfl, rfl, rfl⟩

/-- The table of a machine without an ext2 root disk, mount points numbered in their order. -/
def fat32Table : List (MountPointEntry Nat) :=
  (mpCandidates 0 1 2 3 4).tail.map fun c => ⟨c.mp, c.conts⟩

theorem init_fat32Table : init (mpCandidates 0 1 2 3 4) (fun m => m != 0) = some fat32Table := rfl

theorem fat32Table_mountTable : MountTable fat32Table :=
  init_mountTable mpCandidates_slashed (by decide) init_fat32Table

/-- A driver that finds every file. -/
def findsAll : FileSystemDriver Unit where
  «open» _ s := ((⟨0, 0, true⟩, true), s)
  write _ _ _ s := (.Sucess, s)
  read _ _ s := ((.Sucess, []), s)
  close _ s := s

/-! ### Routing -/

theorem exists_longest (ht : MountTable mps) (fp : CStr) (h : charAt fp.chars 0 = slash) :
    ∃ i e, Longest mps fp i e := by
  obtain ⟨e, he, hroot⟩ := ht.root
  have hn : named fp e = true := by
    rw [named_iff, hroot]
    cases hfp : fp.chars with
    | nil => rw [hfp] at h; cases h
    | cons c cs =>
        rw [hfp] at h
        exact ⟨cs, by rw [show c = slash from h]; rfl⟩
  obtain ⟨i, b, -, hb⟩ := exists_lastMax (fun e => strlen e.k) he hn
  exact ⟨i, b, hb⟩

/-- With enough fuel `open` picks the last name of greatest nesting among those that match. -/
theorem route_eq (ht : MountTable mps) (h : charAt fp.chars 0 = slash) {k : Nat}
    {b : MountPointEntry μ}
    (hb : IsLastMax (fun e => mountPointMatches e.k fp) (fun e => getFolderNestage e.k) mps k b)
    {fuel : Nat} (hf : mps.length < fuel) : route mps fp fuel = some (some b.v) := by
  have hk : k < mps.length := (List.getElem?_eq_some_iff.mp hb.1).1
  have hs : ∀ e ∈ mps, 1 ≤ getFolderNestage e.k := fun e he => one_le_nestage (ht.slashed e he)
  obtain ⟨i, hi, hloop⟩ := matchLoop_some hb.1 hb.2.1 fuel 0 (Nat.zero_le k) (by omega)
  obtain ⟨k', b', hmax, hb'⟩ := exists_lastMax (fun e => getFolderNestage e.k)
    (p := fun e => mountPointMatches e.k fp) (List.mem_of_getElem? hb.1) hb.2.1
  have hbb : b' = b := by
    have := hb'.1
    rw [hb'.unique hb, hb.1] at this
    exact (Option.some.inj this).symm
  have hlen := ht.len
  have hpos : getFolderNestage b.k ≠ 0 := Nat.ne_of_gt (hs b (List.mem_of_getElem? hb.1))
  simp only [route, h, ne_eq, not_true_eq_false, if_false, hloop,
    if_neg (show ¬ i = 2 ^ 32 - 1 by omega), select_eq_lastMax hs, hmax, hbb, Option.map_some,
    Option.getD_some, hpos]

/-- Once a mount point is chosen `open` returns: the table is only assigned where it has an
entry. -/
theorem open_of_route {drivers : μ → FileSystemDriver δ} {fs : FileSystem μ δ} {m : μ} {fuel : Nat}
    (h : route fs.mountpoints fp fuel = some (some m)) :
    ∃ fd fs', fs.open drivers fuel fp = some (fd, fs') ∧
      fs'.drv = ((drivers m).open fp fs.drv).2 := by
  rw [FileSystem.open, h]
  by_cases hx : fs.fdMapping.exists (toFd fs.latestFd) = true
  · obtain ⟨g, hg⟩ : ∃ g, fs.fdMapping.get (toFd fs.latestFd) = some g := by
      rw [← Option.ne_none_iff_exists', Map.get_eq_find, Ne, AssocVec.find_eq_none_iff,
        Classical.not_not]
      exact Map.exists_iff.mp hx
    exact ⟨_, _, by simp only [hx, if_true, Map.assign, hg, Option.map_some]; rfl, rfl⟩
  · exact ⟨_, _, by simp only [hx, Bool.false_eq_true, if_false, Option.map_some]; rfl, rfl⟩

end RivOS.FileSystem
