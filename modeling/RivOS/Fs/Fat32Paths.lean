import Mathlib.Data.List.DropRight
import Mathlib.Data.List.TakeWhile
import RivOS.Fs.Fat32Lookup

/-!
# Fs — Paths of 8.3 names

A directory of a volume is the list of the entries in the clusters of its chain, up to the end
marker.  For paths of 8.3 names `Walk` says what a path leads to: for each component the first file
or subdirectory of that name.

* `looks_name`: the kernel's driver takes the first entry of the name that is neither deleted nor
  part of a long name, so a volume label too.
* `resolvePath_walks_iff`: `resolvePath` does what `Walk` says exactly when no volume label is in
  the way and the heap has room for a cluster.
-/

namespace RivOS.Fat32

open BootSector

/-! ### Names -/

/-- Equal but for the case of letters. -/
def EqFold (s w : List UInt8) : Prop := s.map toUpper = w.map toUpper

instance (s w : List UInt8) : Decidable (EqFold s w) := inferInstanceAs (Decidable (_ = _))

structure NameChar (c : UInt8) : Prop where
  ne_nul : c ≠ 0
  ne_space : c ≠ 32
  ne_dot : c ≠ dot
  not_sep : isSep c = false

instance (c : UInt8) : Decidable (NameChar c) :=
  decidable_of_iff (c ≠ 0 ∧ c ≠ 32 ∧ c ≠ dot ∧ isSep c = false)
    ⟨fun h => ⟨h.1, h.2.1, h.2.2.1, h.2.2.2⟩, fun h => ⟨h.1, h.2, h.3, h.4⟩⟩

/-- A valid 8.3 name. -/
structure Name83 where
  base : List UInt8
  ext : List UInt8
  base_ne : base ≠ []
  base_le : base.length ≤ 8
  ext_le : ext.length ≤ 3
  base_chars : ∀ c ∈ base, NameChar c
  ext_chars : ∀ c ∈ ext, NameChar c

/-- As it is written in a path; there is a dot only where there is an extension. -/
def Name83.text (n : Name83) : List UInt8 := n.base ++ if n.ext = [] then [] else dot :: n.ext

/-- A field of an entry without the spaces that fill it up. -/
def trimmed (s : List UInt8) : List UInt8 := s.rdropWhile (· == 32)

namespace DirEntry

variable (e : DirEntry)

def HasName (n : Name83) : Prop := EqFold (trimmed e.name) n.base ∧ EqFold (trimmed e.ext) n.ext

def IsEnd : Prop := charAt e.name 0 = 0x00

def IsDeleted : Prop := charAt e.name 0 = 0xE5

def IsLongName : Prop := e.attributes &&& 0x0F = 0x0F

/-- The volume bit without the directory bit. -/
def IsLabel : Prop := e.attributes &&& 0x18 = 0x08

/-- The entries that the driver does not skip. -/
def IsSeen : Prop := ¬ e.IsDeleted ∧ ¬ e.IsLongName

/-- A file or a subdirectory. -/
def IsProper : Prop := e.IsSeen ∧ ¬ e.IsLabel

instance (n : Name83) : Decidable (e.HasName n) := inferInstanceAs (Decidable (_ ∧ _))
instance : Decidable e.IsEnd := inferInstanceAs (Decidable (_ = _))
instance : Decidable e.IsDeleted := inferInstanceAs (Decidable (_ = _))
instance : Decidable e.IsLongName := inferInstanceAs (Decidable (_ = _))
instance : Decidable e.IsLabel := inferInstanceAs (Decidable (_ = _))
instance : Decidable e.IsSeen := inferInstanceAs (Decidable (_ ∧ _))
instance : Decidable e.IsProper := inferInstanceAs (Decidable (_ ∧ _))

end DirEntry

/-! ### Directories and walks -/

/-- The entries of a directory, up to the end marker. -/
def listing (disk : Disk) (cs : List Nat) : List DirEntry :=
  (cs.flatMap fun c => entriesIn layout disk (clusterData disk c)).takeWhile fun e => ¬ e.IsEnd

/-- The first file or subdirectory of a name. -/
def firstProper (n : Name83) (es : List DirEntry) : Option DirEntry :=
  es.find? fun e => e.IsProper ∧ e.HasName n

def firstSeen (n : Name83) (es : List DirEntry) : Option DirEntry :=
  es.find? fun e => e.IsSeen ∧ e.HasName n

/-- What the names lead to from the directory `c` on. -/
inductive Walk (disk : Disk) : Nat → List Name83 → DirEntry → Prop
  | last {c : Nat} {cs : List Nat} {n : Name83} {e : DirEntry} : ClusterChain disk c cs →
      firstProper n (listing disk cs) = some e → Walk disk c [n] e
  | step {c : Nat} {cs : List Nat} {n : Name83} {ns : List Name83} {e e' : DirEntry} :
      ClusterChain disk c cs → firstProper n (listing disk cs) = some e → e.isDirectory = true →
      Walk disk (clusterOf e) ns e' → Walk disk c (n :: ns) e'

/-- The directories that can be named. -/
inductive Directory (disk : Disk) : Nat → Prop
  | root : Directory disk (rootDirClusterNum disk)
  | sub {c : Nat} {cs : List Nat} {n : Name83} {e : DirEntry} : Directory disk c →
      ClusterChain disk c cs → e ∈ listing disk cs → e.IsProper → e.HasName n →
      e.isDirectory = true → Directory disk (clusterOf e)

/-- A volume label is in the way: it is the first entry of the last name; or of a name before,
while the names do lead somewhere. -/
inductive Blocked (disk : Disk) : Nat → List Name83 → Prop
  | last {c : Nat} {cs : List Nat} {n : Name83} {e : DirEntry} : ClusterChain disk c cs →
      firstSeen n (listing disk cs) = some e → e.IsLabel → Blocked disk c [n]
  | hides {c : Nat} {cs : List Nat} {n : Name83} {ns : List Name83} {e e' : DirEntry} :
      ClusterChain disk c cs → firstSeen n (listing disk cs) = some e → e.IsLabel → ns ≠ [] →
      Walk disk c (n :: ns) e' → Blocked disk c (n :: ns)
  | deeper {c : Nat} {cs : List Nat} {n : Name83} {ns : List Name83} {e : DirEntry} :
      ClusterChain disk c cs → firstSeen n (listing disk cs) = some e → ¬ e.IsLabel → ns ≠ [] →
      e.isDirectory = true → Blocked disk (clusterOf e) ns → Blocked disk c (n :: ns)

variable {disk : Disk} {c fuel : Nat} {cs : List Nat} {n : Name83} {ns : List Name83}
  {e e' : DirEntry} {es es' : List DirEntry} {s w : List UInt8} {r : Option DirEntry}

/-! ### Names in fields -/

theorem toUpper_eq_space_iff {c : UInt8} : toUpper c = 32 ↔ c = 32 := by
  obtain ⟨v⟩ := c
  revert v
  decide +kernel

theorem trimmed_append_spaces (s : List UInt8) (k : Nat) :
    trimmed (s ++ List.replicate k 32) = trimmed s := by
  induction k with
  | zero => simp
  | succ k ih =>
      rw [List.replicate_succ', ← List.append_assoc, trimmed, List.rdropWhile_concat_pos _ _ _ rfl]
      exact ih

theorem trimmed_eq_self (h : ∀ c ∈ s, c ≠ 32) : trimmed s = s := by
  refine List.rdropWhile_eq_self_iff.mpr fun hne => ?_
  simpa using h _ (List.getLast_mem hne)

/-- What was trimmed are spaces. -/
theorem eq_trimmed_append (s : List UInt8) :
    s = trimmed s ++ List.replicate (s.length - (trimmed s).length) 32 := by
  induction s using List.reverseRecOn with
  | nil => rfl
  | append_singleton s c ih =>
      have hle := (List.rdropWhile_prefix (· == 32) s).length_le
      by_cases hc : c = 32
      · subst hc
        have htrim : trimmed (s ++ [32]) = trimmed s := List.rdropWhile_concat_pos _ _ _ rfl
        have hlen : (s ++ [32]).length - (trimmed s).length =
            (s.length - (trimmed s).length) + 1 := by
          rw [List.length_append, List.length_singleton]
          exact Nat.sub_add_comm hle
        rw [htrim, hlen, List.replicate_succ', ← List.append_assoc, ← ih]
      · have htrim : trimmed (s ++ [c]) = s ++ [c] :=
          List.rdropWhile_concat_neg _ _ _ (by simpa using hc)
        rw [htrim, Nat.sub_self, List.replicate_zero, List.append_nil]

theorem map_toUpper_spaces (k : Nat) :
    (List.replicate k (32 : UInt8)).map toUpper = List.replicate k 32 := by
  rw [List.map_replicate]
  rfl

/-- A field has a name in it when, trimmed, it is the name. -/
theorem eqFold_field_iff {k : Nat} (hs : s.length = k) (hw : ∀ c ∈ w, c ≠ 32) :
    EqFold s (field k w) ↔ EqFold (trimmed s) w := by
  constructor
  · intro h
    have hsplit : s.map toUpper = w.map toUpper ++ List.replicate (k - w.length) 32 := by
      rw [h, field, List.map_append, map_toUpper_spaces]
    obtain ⟨s₁, s₂, rfl, h₁, h₂⟩ := List.map_eq_append_iff.mp hsplit
    obtain rfl : s₂ = List.replicate (k - w.length) 32 := by
      refine List.eq_replicate_iff.mpr ⟨?_, fun c hc => ?_⟩
      · rw [← List.length_map, h₂, List.length_replicate]
      · have hmem := List.mem_map_of_mem (f := toUpper) hc
        rw [h₂] at hmem
        exact toUpper_eq_space_iff.mp (List.eq_of_mem_replicate hmem)
    have hspace : ∀ c ∈ s₁, c ≠ 32 := by
      intro c hc heq
      have hmem := List.mem_map_of_mem (f := toUpper) hc
      rw [h₁] at hmem
      obtain ⟨d, hd, hcd⟩ := List.mem_map.mp hmem
      exact hw d hd (toUpper_eq_space_iff.mp (hcd.trans (toUpper_eq_space_iff.mpr heq)))
    rw [trimmed_append_spaces, trimmed_eq_self hspace]
    exact h₁
  · intro h
    have hl : (trimmed s).length = w.length := by
      have := congrArg List.length h
      rwa [List.length_map, List.length_map] at this
    rw [eq_trimmed_append s, EqFold, List.map_append, h, field, List.map_append, hl, hs]

theorem length_field {k : Nat} (h : w.length ≤ k) : (field k w).length = k := by
  rw [field, List.length_append, List.length_replicate]
  omega

theorem zero_not_mem_field {k : Nat} (h : ∀ c ∈ w, c ≠ 0) : 0 ∉ field k w := by
  intro hmem
  rcases List.mem_append.mp hmem with hw | hs
  · exact h 0 hw rfl
  · exact absurd (List.eq_of_mem_replicate hs) (by decide)

/-- The name that the kernel's driver looks for. -/
def Name83.fatName (n : Name83) : List UInt8 := strToUpper (field 8 n.base ++ field 3 n.ext)

theorem Name83.text_length (n : Name83) : ¬ 63 < n.text.length := by
  have hbase := n.base_le
  have hext := n.ext_le
  rw [Name83.text, List.length_append]
  split
  · rw [List.length_nil]
    omega
  · rw [List.length_cons]
    omega

/-- Every valid name is accepted. -/
theorem makeFatName_text (n : Name83) : makeFatName n.text = some n.fatName := by
  have hbase : n.text.takeWhile (fun c => !isSep c && c != dot) = n.base := by
    rw [Name83.text, List.takeWhile_append_of_pos]
    · split <;> simp
    · intro c hc
      simp [(n.base_chars c hc).not_sep, (n.base_chars c hc).ne_dot]
  have hext : (n.ext.takeWhile fun c => !isSep c) = n.ext := by
    refine List.takeWhile_eq_self_iff.mpr fun c hc => ?_
    simp [(n.ext_chars c hc).not_sep]
  have hrest : n.text.drop n.base.length = if n.ext = [] then [] else dot :: n.ext :=
    List.drop_left
  have hb := n.base_le
  have he := n.ext_le
  rw [makeFatName, fillFatName]
  simp only [hbase, hrest, if_neg (Nat.not_lt.mpr hb), if_neg n.base_ne]
  by_cases hx : n.ext = []
  · simp [hx, charAt, dot, Name83.fatName]
  · simp [hx, charAt, hext, Nat.not_lt.mpr he, Name83.fatName]

/-- The comparison of `findDirEntryInDir`. -/
theorem streqi_fatName_iff (hname : e.name.length = 8) (hext : e.ext.length = 3) :
    streqi (strToUpper (e.name ++ e.ext)) n.fatName = true ↔ e.HasName n := by
  have hzero : 0 ∉ n.fatName := by
    rw [Name83.fatName, zero_mem_strToUpper, List.mem_append, not_or]
    exact ⟨zero_not_mem_field fun c hc => (n.base_chars c hc).ne_nul,
      zero_not_mem_field fun c hc => (n.ext_chars c hc).ne_nul⟩
  have hlen : (strToUpper (e.name ++ e.ext)).length = n.fatName.length := by
    simp only [Name83.fatName, length_strToUpper, List.length_append, hname, hext,
      length_field n.base_le, length_field n.ext_le]
  have hfields : e.name.length = (field 8 n.base).length := by rw [hname, length_field n.base_le]
  rw [streqi_iff hlen hzero, Name83.fatName, map_toUpper_strToUpper, map_toUpper_strToUpper,
    List.map_append, List.map_append, DirEntry.HasName,
    ← eqFold_field_iff hname fun c hc => (n.base_chars c hc).ne_space,
    ← eqFold_field_iff hext fun c hc => (n.ext_chars c hc).ne_space]
  refine ⟨fun h => List.append_inj h (by simpa using hfields), fun h => ?_⟩
  rw [h.1, h.2]

/-! ### Searching a directory for a name -/

/-- The fields of an entry have their lengths. -/
theorem length_name {l : Layout} (hbps : bytesPerSector disk = 512) (hl : 11 ≤ l.sizeof)
    (he : e ∈ entriesIn l disk (clusterData disk c)) : e.name.length = 8 ∧ e.ext.length = 3 := by
  obtain ⟨i, hi, rfl⟩ := List.mem_map.mp he
  have hi := List.mem_range.mp hi
  have hle : i * l.sizeof + l.sizeof ≤ bytesPerCluster disk := by
    rw [← Nat.succ_mul]
    exact Nat.le_trans (Nat.mul_le_mul_right _ hi) (Nat.div_mul_le_self ..)
  have hlen : ((clusterData disk c).drop (i * l.sizeof)).length ≥ 11 := by
    rw [List.length_drop, length_clusterData hbps]
    omega
  simp only [DirEntry.ofBytes, List.length_take, List.length_drop] at hlen ⊢
  omega

theorem scan_cons (fatName : List UInt8) (e : DirEntry) (es : List DirEntry) :
    scan fatName (e :: es) =
      if e.IsEnd then some none
      else if e.IsSeen ∧ streqi (strToUpper (e.name ++ e.ext)) fatName = true then some (some e)
      else scan fatName es := by
  by_cases hend : e.IsEnd
  · rw [if_pos hend, scan, if_pos (show charAt e.name 0 = 0x00 from hend)]
  · rw [if_neg hend, scan, if_neg (show ¬ charAt e.name 0 = 0x00 from hend)]
    by_cases hdel : charAt e.name 0 = 0xE5
    · rw [if_pos hdel, if_neg fun h => h.1.1 hdel]
    · rw [if_neg hdel]
      by_cases hlong : e.attributes &&& 0x0F = 0x0F
      · rw [if_pos hlong, if_neg fun h => h.1.2 hlong]
      · rw [if_neg hlong]
        by_cases hn : streqi (strToUpper (e.name ++ e.ext)) fatName = true
        · rw [if_pos hn, if_pos ⟨⟨hdel, hlong⟩, hn⟩]
        · rw [if_neg hn, if_neg fun h => hn h.2]

theorem scan_append (fatName : List UInt8) (es es' : List DirEntry) :
    scan fatName (es ++ es') = (scan fatName es).or (scan fatName es') := by
  induction es with
  | nil => rfl
  | cons e es ih =>
      rw [List.cons_append, scan_cons, scan_cons]
      split
      · rfl
      · split
        · rfl
        · exact ih

theorem findSome_scan (fatName : List UInt8) (f : Nat → List DirEntry) (cs : List Nat) :
    cs.findSome? (fun c => scan fatName (f c)) = scan fatName (cs.flatMap f) := by
  induction cs with
  | nil => rfl
  | cons c cs ih =>
      rw [List.findSome?_cons, List.flatMap_cons, scan_append, ← ih]
      cases scan fatName (f c) <;> rfl

/-- The scan of a directory finds the first entry of the name that is not skipped. -/
theorem scan_getD (hlen : ∀ e ∈ es, e.name.length = 8 ∧ e.ext.length = 3) :
    (scan n.fatName es).getD none = firstSeen n (es.takeWhile fun e => ¬ e.IsEnd) := by
  induction es with
  | nil => rfl
  | cons e es ih =>
      have ih := ih fun e he => hlen e (.tail _ he)
      obtain ⟨hname, hext⟩ := hlen e List.mem_cons_self
      have hmatch := streqi_fatName_iff (n := n) hname hext
      rw [scan_cons]
      simp only [hmatch]
      by_cases hend : e.IsEnd
      · rw [if_pos hend, List.takeWhile_cons_of_neg (by simpa using hend)]
        rfl
      · rw [if_neg hend, List.takeWhile_cons_of_pos (by simpa using hend), firstSeen]
        by_cases hn : e.IsSeen ∧ e.HasName n
        · rw [if_pos hn, List.find?_cons_of_pos (by simpa using hn)]
          rfl
        · rw [if_neg hn, List.find?_cons_of_neg (by simpa using hn), ih]
          rfl

/-- **Looking for a name** in a directory whose chain has an end. -/
theorem looks_name (hbps : bytesPerSector disk = 512) (hc : ClusterChain disk c cs) :
    Looks kernelDialect disk c n.text (firstSeen n (listing disk cs)) := by
  refine .search (makeFatName_text n) ?_
  have hv : Finds layout disk n.fatName c ((cs.findSome? (answer layout disk n.fatName)).getD none) :=
    hc.visits
  have hlen : ∀ e ∈ cs.flatMap fun c => entriesIn layout disk (clusterData disk c),
      e.name.length = 8 ∧ e.ext.length = 3 := by
    intro e he
    obtain ⟨c, -, he⟩ := List.mem_flatMap.mp he
    exact length_name hbps (by decide) he
  have hscan := scan_getD (n := n) hlen
  rw [← findSome_scan] at hscan
  exact hscan ▸ hv

/-! ### Walks -/

/-- The first entry that is seen, if it is no label, is the first file or subdirectory. -/
theorem firstProper_of_seen (h : firstSeen n es = some e) (hl : ¬ e.IsLabel) :
    firstProper n es = some e := by
  obtain ⟨hfound, as, bs, rfl, has⟩ := List.find?_eq_some_iff_append.mp h
  obtain ⟨hseen, hname⟩ : e.IsSeen ∧ e.HasName n := by simpa using hfound
  refine List.find?_eq_some_iff_append.mpr ⟨?_, as, bs, rfl, fun a ha => ?_⟩
  · simpa using ⟨⟨hseen, hl⟩, hname⟩
  · have hno := has a ha
    rw [Bool.not_eq_true', decide_eq_false_iff_not] at hno ⊢
    exact fun hp => hno ⟨hp.1.1, hp.2⟩

theorem firstProper_of_none (h : firstSeen n es = none) : firstProper n es = none := by
  refine List.find?_eq_none.mpr fun e he hp => List.find?_eq_none.mp h e he ?_
  have hp : e.IsProper ∧ e.HasName n := by simpa using hp
  simpa using ⟨hp.1.1, hp.2⟩

theorem isDirectory_of_label (h : e.IsLabel) : e.isDirectory = false := by
  have hbits : ∀ a : UInt8, a &&& 0x18 = 0x08 → (a &&& 0x10 != 0) = false := by
    rintro ⟨v⟩
    revert v
    decide +kernel
  exact hbits e.attributes h

theorem ne_nil_of_walk (h : Walk disk c ns e) : ns ≠ [] := by
  cases h <;> exact List.cons_ne_nil _ _

/-- A walk through a directory whose chain is known. -/
theorem walk_cons_iff (hc : ClusterChain disk c cs) :
    Walk disk c (n :: ns) e ↔ ∃ e', firstProper n (listing disk cs) = some e' ∧
      (ns = [] ∧ e' = e ∨ e'.isDirectory = true ∧ Walk disk (clusterOf e') ns e) := by
  constructor
  · intro h
    cases h with
    | last hc' hf =>
        obtain rfl := hc.unique hc'
        exact ⟨e, hf, .inl ⟨rfl, rfl⟩⟩
    | step hc' hf hdir hw =>
        obtain rfl := hc.unique hc'
        exact ⟨_, hf, .inr ⟨hdir, hw⟩⟩
  · rintro ⟨e', hf, ⟨rfl, rfl⟩ | ⟨hdir, hw⟩⟩
    · exact .last hc hf
    · exact .step hc hf hdir hw

theorem map_text_ne_nil (h : ns ≠ []) : ns.map Name83.text ≠ [] := by
  simpa using h

/-- Where no label is in the way the driver walks. -/
theorem leads_of_not_blocked (hbps : bytesPerSector disk = 512)
    (hdirs : ∀ c, Directory disk c → ∃ cs, ClusterChain disk c cs) (hc : Directory disk c)
    (hb : ¬ Blocked disk c ns) :
    ∃ r, Leads kernelDialect disk c (ns.map Name83.text) r ∧ ∀ e, r = some e ↔ Walk disk c ns e := by
  induction ns generalizing c with
  | nil => exact ⟨none, .nowhere, fun e => ⟨nofun, fun h => absurd rfl (ne_nil_of_walk h)⟩⟩
  | cons n ns ih =>
      obtain ⟨cs, hcs⟩ := hdirs c hc
      have hlook := looks_name (n := n) hbps hcs
      simp only [walk_cons_iff hcs, List.map_cons]
      cases hseen : firstSeen n (listing disk cs) with
      | none =>
          rw [hseen] at hlook
          refine ⟨none, .missing n.text_length hlook, fun e => ⟨nofun, ?_⟩⟩
          rintro ⟨e', hf, -⟩
          rw [firstProper_of_none hseen] at hf
          cases hf
      | some e =>
          rw [hseen] at hlook
          by_cases hl : e.IsLabel
          · -- a label of the name, but then the names do not lead anywhere
            have hns : ns ≠ [] := by
              rintro rfl
              exact hb (.last hcs hseen hl)
            refine ⟨none, .file n.text_length hlook (map_text_ne_nil hns) (isDirectory_of_label hl),
              fun e' => ⟨nofun, fun hw => ?_⟩⟩
            exact absurd (.hides hcs hseen hl hns ((walk_cons_iff hcs).mpr hw)) hb
          · have hfirst := firstProper_of_seen hseen hl
            simp only [hfirst, Option.some.injEq, exists_eq_left']
            by_cases hns : ns = []
            · subst hns
              refine ⟨some e, .found n.text_length hlook, fun e' => ?_⟩
              refine ⟨fun h => .inl ⟨rfl, Option.some.inj h⟩, ?_⟩
              rintro (⟨-, rfl⟩ | ⟨-, hw⟩)
              · rfl
              · exact absurd rfl (ne_nil_of_walk hw)
            · cases hdir : e.isDirectory with
              | false =>
                  exact ⟨none, .file n.text_length hlook (map_text_ne_nil hns) hdir,
                    fun e' => by simp [hns]⟩
              | true =>
                  obtain ⟨hfound, as, bs, hlist, -⟩ := List.find?_eq_some_iff_append.mp hseen
                  obtain ⟨hs, hname⟩ : e.IsSeen ∧ e.HasName n := by simpa using hfound
                  have hmem : e ∈ listing disk cs := by simp [hlist]
                  obtain ⟨r, hr, hw⟩ := ih (.sub hc hcs hmem ⟨hs, hl⟩ hname hdir)
                    fun h => hb (.deeper hcs hseen hl hns hdir h)
                  exact ⟨r, .down n.text_length hlook (map_text_ne_nil hns) hdir hr,
                    fun e' => by simp [hns, hw]⟩

/-- Where one is, it does not. -/
theorem leads_of_blocked (hbps : bytesPerSector disk = 512) (hb : Blocked disk c ns) :
    ∃ r, Leads kernelDialect disk c (ns.map Name83.text) r ∧
      ¬ ∀ e, r = some e ↔ Walk disk c ns e := by
  induction hb with
  | @last c cs n e hcs hseen hl =>
      have hlook := looks_name (n := n) hbps hcs
      rw [hseen] at hlook
      refine ⟨some e, .found n.text_length hlook, fun h => ?_⟩
      obtain ⟨e', hf, ⟨-, rfl⟩ | ⟨-, hw⟩⟩ := (walk_cons_iff hcs).mp ((h e).mp rfl)
      · have hp : e'.IsProper ∧ e'.HasName n := by simpa using List.find?_some hf
        exact hp.1.2 hl
      · exact ne_nil_of_walk hw rfl
  | @hides c cs n ns e e' hcs hseen hl hns hw =>
      have hlook := looks_name (n := n) hbps hcs
      rw [hseen] at hlook
      refine ⟨none, .file n.text_length hlook (map_text_ne_nil hns) (isDirectory_of_label hl),
        fun h => ?_⟩
      cases (h e').mpr hw
  | @deeper c cs n ns e hcs hseen hl hns hdir _ ih =>
      have hlook := looks_name (n := n) hbps hcs
      rw [hseen] at hlook
      obtain ⟨r, hr, hno⟩ := ih
      refine ⟨r, .down n.text_length hlook (map_text_ne_nil hns) hdir hr, fun h => hno fun e' => ?_⟩
      rw [h e', walk_cons_iff hcs, firstProper_of_seen hseen hl]
      simp [hns, hdir]

/-- **Paths of 8.3 names.** -/
theorem resolvePath_walks_iff (r : HeapRegion) {heap : Mem}
    (hheap : KernelAllocator.InOrder r heap) (hbps : bytesPerSector disk = 512) {fp : CStr}
    (hfp : components fp.chars = ns.map Name83.text)
    (hdirs : ∀ c, Directory disk c → ∃ cs, ClusterChain disk c cs) :
    (∃ turns, ∀ fuel ≥ turns, ∃ res heap',
        resolvePath (KernelAllocator.buffers r) disk fuel fp.chars heap = .ok (res, heap') ∧
          ∀ e, res = some e ↔ Walk disk (rootDirClusterNum disk) ns e) ↔
      ((KernelAllocator.buffers r).HasRoom (bytesPerCluster disk) heap →
        ¬ Blocked disk (rootDirClusterNum disk) ns) ∧
      (¬ (KernelAllocator.buffers r).HasRoom (bytesPerCluster disk) heap →
        ∀ e, ¬ Walk disk (rootDirClusterNum disk) ns e) := by
  by_cases hroom : (KernelAllocator.buffers r).HasRoom (bytesPerCluster disk) heap
  · have hruns : ∀ {q}, Leads kernelDialect disk (rootDirClusterNum disk) (ns.map Name83.text) q →
        ∃ turns, ∀ fuel ≥ turns, ∃ heap',
          resolvePath (KernelAllocator.buffers r) disk fuel fp.chars heap = .ok (q, heap') :=
      fun hq => resolvePath_of_leads hheap hbps hroom (hfp.symm ▸ hq)
    constructor
    · rintro ⟨turns, h⟩
      refine ⟨fun _ hb => ?_, fun hno => absurd hroom hno⟩
      obtain ⟨q, hq, hne⟩ := leads_of_blocked hbps hb
      obtain ⟨turns', h'⟩ := hruns hq
      obtain ⟨res, heap', hres, hw⟩ := h _ (Nat.le_max_left turns turns')
      obtain ⟨heap'', hres'⟩ := h' _ (Nat.le_max_right turns turns')
      rw [hres] at hres'
      cases hres'
      exact hne hw
    · rintro ⟨hfree, -⟩
      obtain ⟨q, hq, hw⟩ := leads_of_not_blocked hbps hdirs .root (hfree hroom)
      obtain ⟨turns, h⟩ := hruns hq
      refine ⟨turns, fun fuel hf => ?_⟩
      obtain ⟨heap', hr⟩ := h fuel hf
      exact ⟨q, heap', hr, hw⟩
  · have hnone := resolvePath_refused hroom
    constructor
    · rintro ⟨turns, h⟩
      refine ⟨fun hyes => absurd hyes hroom, fun _ e hw => ?_⟩
      obtain ⟨res, heap', hres, hiff⟩ := h turns (Nat.le_refl turns)
      obtain ⟨heap'', hres'⟩ := hnone turns fp.chars
      rw [hres] at hres'
      cases hres'
      cases (hiff e).mpr hw
    · rintro ⟨-, hno⟩
      refine ⟨0, fun fuel _ => ?_⟩
      obtain ⟨heap', hres⟩ := hnone fuel fp.chars
      exact ⟨none, heap', hres, fun e => ⟨nofun, fun hw => absurd hw (hno hroom e)⟩⟩

/-- The root directory has the volume label `RIVOS` and the file `A.TXT`. -/
def labelDisk : Disk :=
  diskOf (smallBoot ++ [(1, 8, [255, 255, 255, 15, 255, 255, 255, 15]),
    (2, 0, ascii ['R', 'I', 'V', 'O', 'S', ' ', ' ', ' ', ' ', ' ', ' '] ++ [0x08]),
    (2, 32, ascii ['A', ' ', ' ', ' ', ' ', ' ', ' ', ' ', 'T', 'X', 'T'] ++ [0x20]),
    (2, 58, [3, 0, 5])])

def labelEntry : DirEntry :=
  ⟨ascii ['R', 'I', 'V', 'O', 'S', ' ', ' ', ' '], ascii [' ', ' ', ' '], 0x08, 0, 0, 0⟩

def fileEntry : DirEntry :=
  ⟨ascii ['A', ' ', ' ', ' ', ' ', ' ', ' ', ' '], ascii ['T', 'X', 'T'], 0x20, 0, 3, 5⟩

theorem labelDisk_root : bytesPerSector labelDisk = 512 ∧ rootDirClusterNum labelDisk = 2 ∧
    ClusterChain labelDisk 2 [2] ∧ listing labelDisk [2] = [labelEntry, fileEntry] :=
  ⟨by decide +kernel, by decide +kernel, .last (by decide +kernel), by decide +kernel⟩

/-- Its only directory is the root. -/
theorem labelDisk_directory (h : Directory labelDisk c) : c = 2 := by
  obtain ⟨-, hroot, hchain, hlist⟩ := labelDisk_root
  induction h with
  | root => exact hroot
  | sub _ hc he _ _ hdir ih =>
      rw [ih] at hc
      rw [← hchain.unique hc, hlist] at he
      rcases List.mem_cons.mp he with rfl | he
      · cases hdir
      · rw [List.mem_singleton.mp he] at hdir
        cases hdir

theorem labelDisk_chains (c : Nat) (h : Directory labelDisk c) :
    ∃ cs, ClusterChain labelDisk c cs := by
  rw [labelDisk_directory h]
  exact ⟨[2], labelDisk_root.2.2.1⟩

def rivos : Name83 where
  base := ascii ['R', 'I', 'V', 'O', 'S']
  ext := []
  base_ne := by decide
  base_le := by decide
  ext_le := by decide
  base_chars := by decide +kernel
  ext_chars := by decide +kernel

def aTxt : Name83 where
  base := ascii ['a']
  ext := ascii ['t', 'x', 't']
  base_ne := by decide
  base_le := by decide
  ext_le := by decide
  base_chars := by decide +kernel
  ext_chars := by decide +kernel

/-- The file is found: its name is no label's. -/
theorem resolvePath_walks_small : ∃ fuel heap',
    resolvePath (KernelAllocator.buffers KernelAllocator.smallImage) labelDisk fuel
      (CStr.lit ['/', 'a', '.', 't', 'x', 't', '/']).chars
      (KernelAllocator.init KernelAllocator.smallImage fun _ => 0) =
        .ok (some fileEntry, heap') := by
  obtain ⟨hbps, hroot, hchain, hlist⟩ := labelDisk_root
  have hfree : ¬ Blocked labelDisk (rootDirClusterNum labelDisk) [aTxt] := by
    rw [hroot]
    intro h
    cases h with
    | last hc hseen hl =>
        rw [← hchain.unique hc, hlist, show firstSeen aTxt [labelEntry, fileEntry] = some fileEntry by
          decide] at hseen
        cases hseen
        exact absurd hl (by decide)
    | hides _ _ _ hns | deeper _ _ _ hns => exact absurd rfl hns
  have hcomp : components (CStr.lit ['/', 'a', '.', 't', 'x', 't', '/']).chars =
      [aTxt].map Name83.text := by decide
  obtain ⟨turns, h⟩ := (resolvePath_walks_iff KernelAllocator.smallImage ⟨_, init_heap fun _ => 0⟩
    hbps hcomp labelDisk_chains).mpr
      ⟨fun _ => hfree, fun hno => absurd (by decide +kernel) hno⟩
  obtain ⟨res, heap', hres, hw⟩ := h turns (Nat.le_refl turns)
  have hwalk : Walk labelDisk (rootDirClusterNum labelDisk) [aTxt] fileEntry := by
    rw [hroot]
    exact .last hchain (by rw [hlist]; decide)
  rw [(hw fileEntry).mpr hwalk] at hres
  exact ⟨turns, heap', hres⟩

/-- `/RIVOS` leads nowhere, as there is only a volume label of the name, and `resolvePath` finds
it. -/
theorem label_resolved : bytesPerSector labelDisk = 512 ∧
    (∀ c, Directory labelDisk c → ∃ cs, ClusterChain labelDisk c cs) ∧
    components (CStr.lit ['/', 'R', 'I', 'V', 'O', 'S']).chars = [rivos.text] ∧
    (∀ e, ¬ Walk labelDisk (rootDirClusterNum labelDisk) [rivos] e) ∧
    ∃ heap', resolvePath (KernelAllocator.buffers KernelAllocator.smallImage) labelDisk 1
      (CStr.lit ['/', 'R', 'I', 'V', 'O', 'S']).chars
      (KernelAllocator.init KernelAllocator.smallImage fun _ => 0) =
        .ok (some labelEntry, heap') := by
  obtain ⟨hbps, hroot, hchain, hlist⟩ := labelDisk_root
  refine ⟨hbps, labelDisk_chains, by decide, fun e hw => ?_, ?_⟩
  · rw [hroot, walk_cons_iff hchain, hlist,
      show firstProper rivos [labelEntry, fileEntry] = none by decide] at hw
    obtain ⟨_, h, -⟩ := hw
    cases h
  · have hrun : (resolvePath (KernelAllocator.buffers KernelAllocator.smallImage) labelDisk 1
        (CStr.lit ['/', 'R', 'I', 'V', 'O', 'S']).chars
        (KernelAllocator.init KernelAllocator.smallImage fun _ => 0)).map Prod.fst =
          .ok (some labelEntry) := by decide +kernel
    obtain ⟨⟨_, heap'⟩, hres, rfl⟩ := map_eq_ok.mp hrun
    exact ⟨heap', hres⟩

end RivOS.Fat32
