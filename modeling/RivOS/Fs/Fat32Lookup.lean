import RivOS.Fs.Fat32Volume
import RivOS.Mem.Buffers

/-!
# Fs — Following a path on a FAT32 volume

The two FAT32 drivers follow a path with the same loop and differ in their `Dialect`: how they read
an entry, and which name they look for.  What a path leads to in a dialect is a relation on the disk
alone, with one derivation at most (`Leads.unique`).

* `splitNext_cases`: `splitNextPathComponent` gives the components of a path one by one.
* `Serves.resolve_of_leads`, `Serves.leads_of_resolve`: for a driver that finds an entry as its
  dialect says, `resolvePath` comes to what the path leads to, and to nothing else.
* `kernel_serves`: the kernel's is such a driver, as long as the heap has room for a cluster.
-/

namespace RivOS.Fat32

open BootSector

/-! ### Components -/

/-- What stands between the separators of a path. -/
def components (path : List UInt8) : List (List UInt8) :=
  (path.splitOnP isSep).filter fun w => w ≠ []

section Components

variable {a : UInt8} {p s w : List UInt8}

theorem components_cons_sep (h : isSep a = true) : components (a :: s) = components s := by
  rw [components, List.splitOnP_cons_eq_if_modifyHead, if_pos h]
  rfl

theorem components_dropWhile : components (s.dropWhile isSep) = components s := by
  induction s with
  | nil => rfl
  | cons a s ih =>
      by_cases h : isSep a = true
      · rw [List.dropWhile_cons_of_pos h, components_cons_sep h, ih]
      · rw [List.dropWhile_cons_of_neg h]

theorem components_word (hw : w ≠ []) (hns : ∀ c ∈ w, isSep c = false)
    (hs : ∀ c ∈ s.head?, isSep c = true) : components (w ++ s) = w :: components s := by
  cases s with
  | nil => simp [components, List.splitOnP_eq_singleton hns, hw]
  | cons a s =>
      have ha := hs a rfl
      rw [components_cons_sep ha, components, List.splitOnP_append_cons_of_forall_mem hns a ha,
        List.filter_cons_of_pos (by simpa using hw), components]

/-- Where a run of characters ends the next one is of another kind. -/
theorem head_dropWhile {f : UInt8 → Bool} : ∀ c ∈ (p.dropWhile f).head?, f c = false := by
  intro c hc
  have h := List.head?_dropWhile_not f p
  rw [Option.mem_def.mp hc] at h
  exact h

theorem drop_takeWhile (f : UInt8 → Bool) (s : List UInt8) :
    s.drop (s.takeWhile f).length = s.dropWhile f := by
  calc s.drop (s.takeWhile f).length
      = (s.takeWhile f ++ s.dropWhile f).drop (s.takeWhile f).length := by
        rw [List.takeWhile_append_dropWhile]
    _ = s.dropWhile f := List.drop_left

/-- A path that begins with a component. -/
theorem components_start (ha : isSep a = false) :
    components (a :: s) = (a :: s).takeWhile (fun c => !isSep c) ::
      components ((a :: s).dropWhile fun c => !isSep c) := by
  have hne : (a :: s).takeWhile (fun c => !isSep c) ≠ [] := by simp [ha]
  conv_lhs => rw [← List.takeWhile_append_dropWhile (p := fun c => !isSep c) (l := a :: s)]
  refine components_word hne (fun c hc => ?_) fun c hc => ?_
  · simpa using List.all_eq_true.mp List.all_takeWhile c hc
  · simpa using head_dropWhile c hc

theorem components_eq_nil_iff : components p = [] ↔ p.dropWhile isSep = [] := by
  rw [← components_dropWhile]
  cases hp : p.dropWhile isSep with
  | nil => simp [components]
  | cons a s =>
      have ha : isSep a = false := head_dropWhile (p := p) a (by rw [hp]; rfl)
      simp [components_start ha]

/-- What `splitNextPathComponent` makes of a path. -/
theorem splitNext_cases (p : List UInt8) :
    (components p = [] ∧ splitNextPathComponent p = none) ∨
      ∃ w rest, components p = w :: components rest ∧ rest.length < p.length ∧
        splitNextPathComponent p = if 63 < w.length then none else some (w, rest) := by
  by_cases hp : p.dropWhile isSep = []
  · exact .inl ⟨components_eq_nil_iff.mpr hp, by simp only [splitNextPathComponent, if_pos hp]⟩
  · obtain ⟨a, s, has⟩ := List.exists_cons_of_ne_nil hp
    have ha : isSep a = false := head_dropWhile (p := p) a (by rw [has]; rfl)
    have hcomp : components p = components (a :: s) := has ▸ components_dropWhile.symm
    refine .inr ⟨_, _, hcomp.trans (components_start ha), ?_, ?_⟩
    · -- the first character of the component is used up
      have hle : (a :: s).length ≤ p.length := has ▸ (List.dropWhile_sublist isSep).length_le
      have hlt : (s.dropWhile fun c => !isSep c).length ≤ s.length :=
        (List.dropWhile_sublist _).length_le
      rw [List.dropWhile_cons_of_pos (by simp [ha])]
      rw [List.length_cons] at hle
      omega
    · simp only [splitNextPathComponent, has, drop_takeWhile, reduceCtorEq, if_false]

theorem splitNext_cons {comps : List (List UInt8)} (h : components p = w :: comps) :
    ∃ rest, components rest = comps ∧ rest.length < p.length ∧
      splitNextPathComponent p = if 63 < w.length then none else some (w, rest) := by
  rcases splitNext_cases p with ⟨hnil, -⟩ | ⟨w', rest, hcons, hlt, hn⟩
  · rw [hnil] at h
    cases h
  · obtain ⟨rfl, hrest⟩ := List.cons.inj (hcons.symm.trans h)
    exact ⟨rest, hrest, hlt, hn⟩

theorem splitNext_nil (h : components p = []) : splitNextPathComponent p = none := by
  rcases splitNext_cases p with ⟨-, hn⟩ | ⟨w', rest, hcons, -⟩
  · exact hn
  · rw [hcons] at h
    cases h

end Components

/-! ### What a path leads to -/

/-- How a driver reads an entry, and the name it looks for; `none` where it refuses a component. -/
structure Dialect where
  layout : Layout
  fatName : List UInt8 → Option (List UInt8)

variable {d : Dialect} {disk : Disk} {c fuel : Nat} {comp : List UInt8} {comps : List (List UInt8)}
  {p : List UInt8} {r r' : Option DirEntry}

/-- What a directory has for a component. -/
inductive Looks (d : Dialect) (disk : Disk) (c : Nat) (comp : List UInt8) : Option DirEntry → Prop
  | refused : d.fatName comp = none → Looks d disk c comp none
  | search {fatName : List UInt8} {r : Option DirEntry} : d.fatName comp = some fatName →
      Finds d.layout disk fatName c r → Looks d disk c comp r

/-- What the components lead to from the directory `c` on. -/
inductive Leads (d : Dialect) (disk : Disk) : Nat → List (List UInt8) → Option DirEntry → Prop
  | nowhere {c : Nat} : Leads d disk c [] none
  | long {c : Nat} {comp : List UInt8} {comps : List (List UInt8)} : 63 < comp.length →
      Leads d disk c (comp :: comps) none
  | missing {c : Nat} {comp : List UInt8} {comps : List (List UInt8)} : ¬ 63 < comp.length →
      Looks d disk c comp none → Leads d disk c (comp :: comps) none
  | found {c : Nat} {comp : List UInt8} {e : DirEntry} : ¬ 63 < comp.length →
      Looks d disk c comp (some e) → Leads d disk c [comp] (some e)
  | file {c : Nat} {comp : List UInt8} {comps : List (List UInt8)} {e : DirEntry} :
      ¬ 63 < comp.length → Looks d disk c comp (some e) → comps ≠ [] → e.isDirectory = false →
      Leads d disk c (comp :: comps) none
  | down {c : Nat} {comp : List UInt8} {comps : List (List UInt8)} {e : DirEntry}
      {r : Option DirEntry} : ¬ 63 < comp.length → Looks d disk c comp (some e) → comps ≠ [] →
      e.isDirectory = true → Leads d disk (clusterOf e) comps r → Leads d disk c (comp :: comps) r

theorem Looks.unique (h : Looks d disk c comp r) (h' : Looks d disk c comp r') : r = r' := by
  rcases h with hn | ⟨hn, hf⟩ <;> rcases h' with hn' | ⟨hn', hf'⟩
  · rfl
  · simp [hn] at hn'
  · simp [hn'] at hn
  · obtain rfl := Option.some.inj (hn.symm.trans hn')
    exact hf.unique hf'

theorem Leads.unique (h : Leads d disk c comps r) (h' : Leads d disk c comps r') : r = r' := by
  induction h generalizing r' with
  | nowhere =>
      cases h'
      rfl
  | long hl =>
      cases h' with
      | long | missing | file => rfl
      | found hl' | down hl' => exact absurd hl hl'
  | missing hl hm =>
      cases h' with
      | long | missing | file => rfl
      | found _ hf | down _ hf => cases hm.unique hf
  | found hl hf =>
      cases h' with
      | long hl' => exact absurd hl' hl
      | missing _ hm => cases hf.unique hm
      | found _ hf' => exact hf.unique hf'
      | file _ _ hne | down _ _ hne => exact absurd rfl hne
  | file hl hf hne hdir =>
      cases h' with
      | long | missing | file => rfl
      | found => exact absurd rfl hne
      | down _ hf' _ hdir' =>
          cases hf.unique hf'
          simp [hdir] at hdir'
  | down hl hf hne hdir _ ih =>
      cases h' with
      | long hl' => exact absurd hl' hl
      | missing _ hm => cases hf.unique hm
      | found => exact absurd rfl hne
      | file _ hf' _ hdir' =>
          cases hf.unique hf'
          simp [hdir] at hdir'
      | down _ hf' _ _ h' =>
          cases hf.unique hf'
          exact ih h'

/-! ### `resolvePath` -/

section Resolve

variable {σ : Type} {find : Nat → List UInt8 → σ → Except Stuck (Option DirEntry × σ)}
  {finds : Nat → Nat → List UInt8 → σ → Except Stuck (Option DirEntry × σ)} {I : σ → Prop} {s s' : σ}

/-- The loop of `resolvePath` from a directory on. -/
def resolveFrom (find : Nat → List UInt8 → σ → Except Stuck (Option DirEntry × σ)) (c : Nat)
    (p : List UInt8) (s : σ) : Except Stuck (Option DirEntry × σ) :=
  loop (resolveTurn find) .running (fun t => t.2.1.length) (c, p, s)

/-- What the loop does with what was found for a component, when `rest` is left of the path. -/
def follow {ρ : Type} (leave : Option DirEntry × σ → ρ) (goOn : Nat → List UInt8 → σ → ρ)
    (rest : List UInt8) (found : Option DirEntry × σ) : ρ :=
  match found with
  | (none, s) => leave (none, s)
  | (some e, s) =>
      if components rest = [] then leave (some e, s)
      else if e.isDirectory = false then leave (none, s)
      else goOn (clusterOf e) (rest.dropWhile isSep) s

theorem resolveTurn_eq {comp rest : List UInt8}
    (hn : splitNextPathComponent p = if 63 < comp.length then none else some (comp, rest)) :
    resolveTurn find (c, p, s) =
      if 63 < comp.length then .ok (.inr (none, s))
      else find c comp s >>=
        follow (fun x => .ok (.inr x)) (fun c p s => .ok (.inl (c, p, s))) rest := by
  rw [resolveTurn, hn]
  by_cases hl : 63 < comp.length
  · rw [if_pos hl, if_pos hl]
  · rw [if_neg hl, if_neg hl]
    dsimp only
    cases find c comp s with
    | error e => rfl
    | ok q =>
        obtain ⟨_ | e, s'⟩ := q
        · rfl
        · simp only [ok_bind, follow, components_eq_nil_iff, Bool.not_eq_true']
          rfl

theorem resolveTurn_shrinks : Shrinks (resolveTurn find) fun t => t.2.1.length := by
  rintro ⟨c, p, s⟩ ⟨c', p', s'⟩ h
  cases hp : components p with
  | nil => simp [resolveTurn, splitNext_nil hp] at h
  | cons comp comps =>
      obtain ⟨rest, -, hlt, hn⟩ := splitNext_cons hp
      rw [resolveTurn_eq hn] at h
      split at h
      · cases h
      · obtain ⟨⟨_ | e, s⟩, -, h⟩ := bind_eq_ok.mp h
        · cases h
        · simp only [follow] at h
          split at h
          · cases h
          · split at h <;> cases h
            exact Nat.lt_of_le_of_lt (List.dropWhile_sublist _).length_le hlt

theorem resolveFrom_nil (h : components p = []) : resolveFrom find c p s = .ok (none, s) :=
  loop_leave (by rw [resolveTurn, splitNext_nil h])

/-- One component. -/
theorem resolveFrom_eq {comp rest : List UInt8}
    (hn : splitNextPathComponent p = if 63 < comp.length then none else some (comp, rest)) :
    resolveFrom find c p s =
      if 63 < comp.length then .ok (none, s)
      else find c comp s >>= follow .ok (resolveFrom find) rest := by
  rw [resolveFrom, loop_eq resolveTurn_shrinks, resolveTurn_eq hn]
  by_cases hl : 63 < comp.length
  · rw [if_pos hl, if_pos hl]
    rfl
  · rw [if_neg hl, if_neg hl]
    cases find c comp s with
    | error e => rfl
    | ok q =>
        obtain ⟨_ | e, s'⟩ := q
        · rfl
        · simp only [ok_bind, follow]
          split
          · rfl
          · split <;> rfl

/-- A driver finds entries as its dialect says, in states that satisfy `I`; `finds` takes the
number of turns. -/
structure Serves (finds : Nat → Nat → List UInt8 → σ → Except Stuck (Option DirEntry × σ))
    (d : Dialect) (disk : Disk) (I : σ → Prop) : Prop where
  complete : ∀ {c comp r}, Looks d disk c comp r →
    ∃ n, ∀ fuel ≥ n, ∀ s, I s → ∃ s', finds fuel c comp s = .ok (r, s') ∧ I s'
  sound : ∀ {fuel c comp s r s'}, I s → finds fuel c comp s = .ok (r, s') →
    Looks d disk c comp r ∧ I s'

/-- One component, given enough turns. -/
theorem Serves.step (h : Serves finds d disk I) {comp rest : List UInt8}
    (hlen : ¬ 63 < comp.length) (hm : Looks d disk c comp r)
    (hn : splitNextPathComponent p = if 63 < comp.length then none else some (comp, rest)) :
    ∃ n, ∀ fuel ≥ n, ∀ s, I s → ∃ s', resolveFrom (finds fuel) c p s =
      follow .ok (resolveFrom (finds fuel)) rest (r, s') ∧ I s' := by
  obtain ⟨n, hfind⟩ := h.complete hm
  refine ⟨n, fun fuel hf s hs => ?_⟩
  obtain ⟨s', hfound, hs'⟩ := hfind fuel hf s hs
  refine ⟨s', ?_, hs'⟩
  rw [resolveFrom_eq hn, if_neg hlen, hfound, ok_bind]

theorem Serves.from_of_leads (h : Serves finds d disk I) (hl : Leads d disk c comps r) :
    ∀ {p}, components p = comps → ∃ n, ∀ fuel ≥ n, ∀ s, I s →
      ∃ s', resolveFrom (finds fuel) c p s = .ok (r, s') ∧ I s' := by
  induction hl with
  | @nowhere c =>
      intro p hp
      exact ⟨0, fun fuel _ s hs => ⟨s, resolveFrom_nil hp, hs⟩⟩
  | @long c comp comps hlong =>
      intro p hp
      obtain ⟨rest, -, -, hn⟩ := splitNext_cons hp
      exact ⟨0, fun fuel _ s hs => ⟨s, by rw [resolveFrom_eq hn, if_pos hlong], hs⟩⟩
  | @missing c comp comps hlen hm =>
      intro p hp
      obtain ⟨rest, -, -, hn⟩ := splitNext_cons hp
      exact h.step hlen hm hn
  | @found c comp e hlen hm =>
      intro p hp
      obtain ⟨rest, hrest, -, hn⟩ := splitNext_cons hp
      have hstep := h.step hlen hm hn
      simp only [follow, hrest, if_true] at hstep
      exact hstep
  | @file c comp comps e hlen hm hne hdir =>
      intro p hp
      obtain ⟨rest, hrest, -, hn⟩ := splitNext_cons hp
      have hstep := h.step hlen hm hn
      simp only [follow, hrest, if_neg hne, hdir, if_true] at hstep
      exact hstep
  | @down c comp comps e r hlen hm hne hdir _ ih =>
      intro p hp
      obtain ⟨rest, hrest, -, hn⟩ := splitNext_cons hp
      obtain ⟨n, hstep⟩ := h.step hlen hm hn
      obtain ⟨n', hgo⟩ := ih (components_dropWhile.trans hrest)
      refine ⟨max n n', fun fuel hf s hs => ?_⟩
      obtain ⟨s', hfound, hs'⟩ := hstep fuel (Nat.le_trans (Nat.le_max_left ..) hf) s hs
      obtain ⟨s'', hr, hs''⟩ := hgo fuel (Nat.le_trans (Nat.le_max_right ..) hf) s' hs'
      refine ⟨s'', ?_, hs''⟩
      rw [hfound]
      simp only [follow, hrest, if_neg hne, hdir, Bool.true_eq_false, if_false, hr]

theorem Serves.leads_of_from (h : Serves finds d disk I) : ∀ {p c s}, I s →
    resolveFrom (finds fuel) c p s = .ok (r, s') → Leads d disk c (components p) r ∧ I s' := by
  intro p
  induction hn : p.length using Nat.strongRecOn generalizing p with
  | ind n ih =>
      intro c s hs hr
      cases hp : components p with
      | nil =>
          rw [resolveFrom_nil hp] at hr
          cases hr
          exact ⟨.nowhere, hs⟩
      | cons comp comps =>
          obtain ⟨rest, rfl, hlt, hsplit⟩ := splitNext_cons hp
          rw [resolveFrom_eq hsplit] at hr
          split at hr
          · next hlong =>
              cases hr
              exact ⟨.long hlong, hs⟩
          · next hlen =>
              obtain ⟨⟨_ | e, s₁⟩, hfound, hr⟩ := bind_eq_ok.mp hr
              · cases hr
                obtain ⟨hm, hs₁⟩ := h.sound hs hfound
                exact ⟨.missing hlen hm, hs₁⟩
              · obtain ⟨hm, hs₁⟩ := h.sound hs hfound
                simp only [follow] at hr
                split at hr
                · next hlast =>
                    cases hr
                    rw [hlast]
                    exact ⟨.found hlen hm, hs₁⟩
                · next hne =>
                    split at hr
                    · next hdir =>
                        cases hr
                        exact ⟨.file hlen hm hne hdir, hs₁⟩
                    · next hdir =>
                        have hle := (List.dropWhile_sublist (l := rest) isSep).length_le
                        obtain ⟨hl, hs'⟩ := ih _ (by omega) rfl hs₁ hr
                        rw [components_dropWhile] at hl
                        exact ⟨.down hlen hm hne (by simpa using hdir) hl, hs'⟩

/-- **Enough turns** bring `resolvePath` to what the path leads to. -/
theorem Serves.resolve_of_leads (h : Serves finds d disk I) {fp : List UInt8}
    (hl : Leads d disk (rootDirClusterNum disk) (components fp) r) :
    ∃ n, ∀ fuel ≥ n, ∀ s, I s →
      ∃ s', resolveWith (finds fuel) disk fp s = .ok (r, s') ∧ I s' := by
  by_cases hfp : fp = []
  · subst hfp
    obtain rfl := hl.unique .nowhere
    exact ⟨0, fun fuel _ s hs => ⟨s, rfl, hs⟩⟩
  · simp only [resolveWith, if_neg hfp]
    exact h.from_of_leads hl rfl

/-- Where `resolvePath` ends, the path leads. -/
theorem Serves.leads_of_resolve (h : Serves finds d disk I) {fp : List UInt8} (hs : I s)
    (hr : resolveWith (finds fuel) disk fp s = .ok (r, s')) :
    Leads d disk (rootDirClusterNum disk) (components fp) r ∧ I s' := by
  rw [resolveWith] at hr
  split at hr
  · next hfp =>
      subst hfp
      cases hr
      exact ⟨.nowhere, hs⟩
  · exact h.leads_of_from hs hr

end Resolve

/-! ### The kernel's driver -/

section Kernel

variable {σ : Type} {al : Allocator σ} {Inv : σ → Prop} {limit : Nat} {s : σ}

/-- How the kernel reads a directory. -/
def kernelDialect : Dialect := ⟨layout, makeFatName⟩

/-- With room for a cluster the kernel's driver finds what there is, and has room again. -/
theorem kernel_serves (hal : al.Lawful Inv limit) (hbps : bytesPerSector disk = 512)
    (hlimit : bytesPerCluster disk ≤ limit) :
    Serves (findDirEntryInDir al disk) kernelDialect disk
      fun s => Inv s ∧ al.HasRoom (bytesPerCluster disk) s where
  complete {c comp r} h := by
    cases h with
    | refused hn =>
        refine ⟨0, fun fuel _ s hs => ⟨s, ?_, hs⟩⟩
        rw [findDirEntryInDir, show makeFatName comp = none from hn]
    | search hn hf =>
        rename_i fatName
        obtain ⟨n, hsearch⟩ := search_of_finds hbps hf
        refine ⟨n, fun fuel hfuel s hs => ?_⟩
        obtain ⟨b, t, ha⟩ := hs.2.buffer
        obtain ⟨bytes, hr, hlen⟩ := hsearch fuel hfuel b.bytes (hal.sized ha)
        refine ⟨al.free ⟨b.addr, bytes⟩ t, ?_, hal.back hs.1 hlimit ha hlen⟩
        simp only [findDirEntryInDir, show makeFatName comp = some fatName from hn, ha]
        rw [show search layout disk fatName fuel c b.bytes = .ok (r, bytes) from hr]
        rfl
  sound {fuel c comp s r s'} hs h := by
    rw [findDirEntryInDir] at h
    cases hn : makeFatName comp with
    | none =>
        rw [hn] at h
        cases h
        exact ⟨.refused hn, hs⟩
    | some fatName =>
        obtain ⟨b, t, ha⟩ := hs.2.buffer
        simp only [hn, ha] at h
        obtain ⟨⟨found, bytes⟩, hsearch, h⟩ := bind_eq_ok.mp h
        cases h
        obtain ⟨hf, hlen⟩ := finds_of_search hbps (hal.sized ha) hsearch
        exact ⟨.search hn hf, hal.back hs.1 hlimit ha hlen⟩

/-- Without room for a cluster no path leads anywhere. -/
theorem resolvePath_refused (h : ¬ al.HasRoom (bytesPerCluster disk) s) (fuel : Nat)
    (fp : List UInt8) : ∃ s', resolvePath al disk fuel fp s = .ok (none, s') := by
  obtain ⟨t, ha⟩ := Allocator.refused h
  rw [resolvePath, resolveWith]
  split
  · exact ⟨s, rfl⟩
  · change ∃ s', resolveFrom _ _ _ _ = _
    cases hp : components fp with
    | nil => exact ⟨s, resolveFrom_nil hp⟩
    | cons comp comps =>
        obtain ⟨rest, -, -, hn⟩ := splitNext_cons hp
        rw [resolveFrom_eq hn]
        split
        · exact ⟨s, rfl⟩
        · rw [findDirEntryInDir]
          cases makeFatName comp with
          | none => exact ⟨s, rfl⟩
          | some fatName =>
              rw [ha]
              exact ⟨t, rfl⟩

theorem readCluster_length {buf bytes : List UInt8} (h : readCluster disk c buf = .ok bytes) :
    bytes.length = buf.length := by
  refine foldlM_inv (P := fun _ b => b.length = buf.length) ?_ rfl h
  intro s _ b b' hb hput
  rw [putAt] at hput
  split at hput
  · next hfits =>
      cases hput
      simp only [List.length_append, List.length_take, List.length_drop]
      omega
  · cases hput

theorem search_length {fatName buf bytes : List UInt8} {l : Layout} {r : Option DirEntry}
    (h : search l disk fatName fuel c buf = .ok (r, bytes)) : bytes.length = buf.length := by
  have hturn : ∀ {t : Nat × List UInt8} {out}, t.2.length = buf.length →
      searchTurn l disk fatName t = .ok out →
        (out.elim Prod.snd Prod.snd).length = buf.length := by
    intro t out ht h
    obtain ⟨clusterBuf, hread, h⟩ := bind_eq_ok.mp h
    have hlen := (readCluster_length hread).trans ht
    split at h
    · cases h
      exact hlen
    · obtain ⟨next, -, h⟩ := bind_eq_ok.mp h
      split at h <;> cases h <;> exact hlen
  exact turns_inv (I := fun t => t.2.length = buf.length) (Q := fun q => q.2.length = buf.length)
    (fun ht h => hturn ht h) (fun ht h => hturn ht h) rfl h

/-- Looking up leaves the allocator as it was, whatever is on the disk. -/
theorem findDirEntryInDir_keeps (hal : al.Lawful Inv limit) (hlimit : bytesPerCluster disk ≤ limit)
    {comp : List UInt8} {q : Option DirEntry} {s' : σ} (hs : Inv s)
    (h : findDirEntryInDir al disk fuel c comp s = .ok (q, s')) : Inv s' := by
  rw [findDirEntryInDir] at h
  split at h
  · cases h
    exact hs
  · split at h
    · next ha =>
        cases h
        have := hal.keeps hs hlimit
        rwa [ha] at this
    · next ha =>
        obtain ⟨⟨found, bytes⟩, hsearch, h⟩ := bind_eq_ok.mp h
        cases h
        exact (hal.back hs hlimit ha ((search_length hsearch).trans (hal.sized ha))).1

theorem resolvePath_keeps (hal : al.Lawful Inv limit) (hlimit : bytesPerCluster disk ≤ limit)
    {fp : List UInt8} {q : Option DirEntry} {s' : σ} (hs : Inv s)
    (h : resolvePath al disk fuel fp s = .ok (q, s')) : Inv s' := by
  rw [resolvePath, resolveWith] at h
  split at h
  · cases h
    exact hs
  have hturn : ∀ {t : Nat × List UInt8 × σ} {out}, Inv t.2.2 →
      resolveTurn (findDirEntryInDir al disk fuel) t = .ok out →
        Inv (out.elim (·.2.2) Prod.snd) := by
    intro t out ht h
    rw [resolveTurn] at h
    split at h
    · cases h
      exact ht
    · obtain ⟨⟨found, s₁⟩, hfind, h⟩ := bind_eq_ok.mp h
      have hs₁ := findDirEntryInDir_keeps hal hlimit ht hfind
      cases found with
      | none =>
          cases h
          exact hs₁
      | some found =>
          dsimp only at h
          split at h
          · cases h
            exact hs₁
          · split at h <;> cases h <;> exact hs₁
  exact loop_inv (I := fun t => Inv t.2.2) (Q := fun q => Inv q.2) (fun ht h => hturn ht h)
    (fun ht h => hturn ht h) hs h

/-- A cluster fits in the kernel's heap. -/
theorem bytesPerCluster_le (r : HeapRegion) (disk : Disk) :
    bytesPerCluster disk ≤ r.heapEnd - r.heapStart := by
  have hbps : bytesPerSector disk < 256 ^ 2 := numAt_lt ..
  have hspc : sectorsPerCluster disk < 256 ^ 1 := numAt_lt ..
  have hsize := r.size
  have hmul : bytesPerSector disk * sectorsPerCluster disk ≤ 256 ^ 2 * 256 ^ 1 :=
    Nat.mul_le_mul (Nat.le_of_lt hbps) (Nat.le_of_lt hspc)
  rw [bytesPerCluster]
  omega

/-- The kernel's driver on the kernel's heap. -/
theorem buffers_serve (r : HeapRegion) (hbps : bytesPerSector disk = 512) :
    Serves (findDirEntryInDir (KernelAllocator.buffers r) disk) kernelDialect disk fun heap =>
      KernelAllocator.InOrder r heap ∧
        (KernelAllocator.buffers r).HasRoom (bytesPerCluster disk) heap :=
  kernel_serves (KernelAllocator.buffers_lawful r) hbps (bytesPerCluster_le r disk)

theorem resolvePath_of_leads {r : HeapRegion} {heap : Mem} {q : Option DirEntry}
    {fp : List UInt8} (hheap : KernelAllocator.InOrder r heap) (hbps : bytesPerSector disk = 512)
    (hroom : (KernelAllocator.buffers r).HasRoom (bytesPerCluster disk) heap)
    (hq : Leads kernelDialect disk (rootDirClusterNum disk) (components fp) q) :
    ∃ turns, ∀ fuel ≥ turns, ∃ heap',
      resolvePath (KernelAllocator.buffers r) disk fuel fp heap = .ok (q, heap') := by
  obtain ⟨turns, h⟩ := (buffers_serve r hbps).resolve_of_leads hq
  refine ⟨turns, fun fuel hf => ?_⟩
  obtain ⟨heap', hr, -⟩ := h fuel hf heap ⟨hheap, hroom⟩
  exact ⟨heap', hr⟩

end Kernel

end RivOS.Fat32
