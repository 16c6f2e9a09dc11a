import RivOS.InitRamFs.ReadBack

/-!
# InitRamFs — The two readers side by side

The kernel's `open` takes a path apart in a loop that skips empty parts, but from the second part on
it looks for the slashes of the path once more, and there a slash in front is taken for none.  A
path with at least two parts therefore finds nothing unless it is made of its parts alone (`Plain`).
The kernel looks at as many entries as the 16-bit counts say (`Counted`), and compares bytes; the
Python reader looks at all entries, and compares text (`readAs`).

* `open_resolves`: on every path, what `open` finds.
* `offset_inj`: entries at different names lie at different places.
* `open_find_iff`: the readers agree on a path exactly when `ResolvesAlike` holds of it, and for a
  representable tree with well-formed names that is when the path is plain or names no file
  (`resolvesAlike_iff`).
-/

namespace RivOS

variable {c : Name} {cs ns : List Name} {d s : DirNode} {l : List UInt8}

/-! ### Counts cut to 16 bits -/

/-- A file the names lead to, past entries that the counts cover. -/
inductive Counted : DirNode → List Name → Prop where
  | here {d : DirNode} {f : FileNode} (h : f ∈ d.files.take (d.files.length % 2 ^ 16)) :
      Counted d [f.name]
  | sub {d s : DirNode} {ns : List Name} (h : s ∈ d.subdirs.take (d.subdirs.length % 2 ^ 16))
      (hs : Counted s ns) : Counted d (s.name :: ns)

theorem counted_single_iff :
    Counted d [c] ↔ ∃ f ∈ d.files.take (d.files.length % 2 ^ 16), f.name = c := by
  constructor
  · rintro (⟨h⟩ | ⟨_, hs⟩)
    · exact ⟨_, h, rfl⟩
    · cases hs
  · rintro ⟨f, h, rfl⟩
    exact .here h

theorem counted_cons_iff (hns : ns ≠ []) :
    Counted d (c :: ns) ↔
      ∃ s ∈ d.subdirs.take (d.subdirs.length % 2 ^ 16), s.name = c ∧ Counted s ns := by
  constructor
  · rintro (_ | ⟨h, hs⟩)
    · exact absurd rfl hns
    · exact ⟨_, h, rfl, hs⟩
  · rintro ⟨s, h, rfl, hs⟩
    exact .sub h hs

/-- The names on the way are names. -/
theorem Counted.isName (h : Counted d ns) : Listable d → ∀ n ∈ ns, IsName n := by
  induction h with
  | here hf =>
      rintro ⟨hfn, -, -, -⟩ n hn
      obtain rfl := List.mem_singleton.mp hn
      exact hfn _ (List.mem_of_mem_take hf)
  | sub hs _ ih =>
      intro hl n hn
      have hmem := List.mem_of_mem_take hs
      rcases List.mem_cons.mp hn with rfl | hn
      · obtain ⟨-, hdn, -, -⟩ := hl
        exact hdn _ hmem
      · exact ih (hl.sub hmem) n hn

theorem Representable.counts (h : Representable d) :
    d.files.length < 2 ^ 16 ∧ d.subdirs.length < 2 ^ 16 := by
  obtain ⟨-, -, -, hf, hd, -⟩ := h
  exact ⟨hf, hd⟩

/-- Where the counts fit, they cover everything. -/
theorem Representable.counted_iff (h : Representable d) :
    Counted d ns ↔ ∃ conts, HasFile d ns conts := by
  have htake : ∀ {α : Type} (l : List α), l.length < 2 ^ 16 → l.take (l.length % 2 ^ 16) = l :=
    fun l hl => by rw [Nat.mod_eq_of_lt hl, List.take_length]
  constructor
  · intro hc
    induction hc with
    | here hf => exact ⟨_, .here (List.mem_of_mem_take hf)⟩
    | sub hs _ ih =>
        have hmem := List.mem_of_mem_take hs
        exact (ih (h.sub hmem)).imp fun _ hf => .sub hmem hf
  · rintro ⟨conts, hf⟩
    induction hf with
    | here hf => exact .here (by rwa [htake _ h.counts.1])
    | sub hs _ ih => exact .sub (by rwa [htake _ h.counts.2]) (ih (h.sub hs))

/-! ### Slashes in a path -/

/-- What `findChar` makes of a path: it gives 0 also where the path starts with a slash. -/
theorem findChar_cases (l : List UInt8) :
    (findChar l slash = 0 ∧ (slash ∉ l ∨ ∃ l', l = slash :: l')) ∨
      ∃ c l', l = c ++ slash :: l' ∧ slash ∉ c ∧ c ≠ [] ∧ findChar l slash = c.length := by
  by_cases hmem : slash ∈ l
  · obtain ⟨c, l', rfl, hc⟩ := List.eq_append_cons_of_mem hmem
    have hfind := findChar_append hc l'
    cases c with
    | nil => exact .inl ⟨hfind, .inr ⟨l', rfl⟩⟩
    | cons x c => exact .inr ⟨x :: c, l', rfl, hc, List.cons_ne_nil x c, hfind⟩
  · exact .inl ⟨findChar_of_not_mem hmem, .inl hmem⟩

/-- The parts of a path, empty ones left out; every part but the last is one of a directory. -/
theorem fileParts_splitOn (l : List UInt8) :
    (RivFs.fileParts l).map (·.sv) = (l.splitOn slash).filter (fun c => !c.isEmpty) ∧
      ∀ {a b rest}, RivFs.fileParts l = a :: b :: rest → a.isDir = true := by
  rcases findChar_cases l with ⟨-, hno | ⟨l', rfl⟩⟩ | ⟨c, l', rfl, hc, hne, -⟩
  · rw [List.splitOn_eq_singleton hno]
    cases l with
    | nil => simp [RivFs.fileParts]
    | cons x l =>
        have hparts : RivFs.fileParts (x :: l) = [⟨x :: l, false⟩] := by
          have := fileParts_append (r := []) (List.cons_ne_nil x l) hno rfl
          rw [List.append_nil] at this
          rw [this]
          simp [RivFs.fileParts, charAt, slash]
        simp [hparts]
  · have hparts : RivFs.fileParts (slash :: l') = RivFs.fileParts l' := by
      rw [RivFs.fileParts, strlenSpecChar, if_pos rfl, if_pos rfl]
    have ih := fileParts_splitOn l'
    rw [hparts, List.splitOn_cons_eq_if_modifyHead, if_pos (by simp),
      List.filter_cons_of_neg (by simp)]
    exact ih
  · have hparts : RivFs.fileParts (c ++ slash :: l') = ⟨c, true⟩ :: RivFs.fileParts l' :=
      fileParts_append hne hc rfl
    have ih := fileParts_splitOn l'
    rw [hparts, List.splitOn_append_cons_self_of_not_mem hc,
      List.filter_cons_of_pos (by simpa using hne), List.map_cons, ih.1]
    refine ⟨rfl, fun h => ?_⟩
    obtain ⟨rfl, -⟩ := List.cons.inj h
    rfl
termination_by l.length
decreasing_by all_goals (subst_vars; simp; try omega)

namespace RivFs

open Genfs RivFsData

variable {mem : PMem} {fs : RivFs} {img : List UInt8} {lo hi off : Nat} {p : RivFsData.DirEntry}

/-! ### What `open` finds -/

/-- The `File` of an entry. -/
def fileOf (fs : RivFs) (e : RivFsData.FileEntry) : File :=
  ⟨fs.rawFsMemloc + e.offset, fs.rawFsMemloc + (e.contentOffset - 4)⟩

/-- `r` is the file that the names lead to within the counts, or nothing. -/
def Resolves (fs : RivFs) (d : DirNode) (p : RivFsData.DirEntry) (ns : List Name)
    (r : Option File) : Prop :=
  (r = none ∧ ¬ Counted d ns) ∨ ∃ e, Counted d ns ∧ EntryOf d p ns e ∧ r = some (fileOf fs e)

theorem mem_zip_fileEntries {f : FileNode} {post : List FileNode} : ∀ {off pre},
    (f, fileEntry (filesEnd off pre) f) ∈
      List.zip (pre ++ f :: post) (fileEntries off (pre ++ f :: post))
  | _, [] => List.mem_cons_self
  | _, _ :: _ => by
      rw [List.cons_append, fileEntries, filesEnd, List.zip_cons_cons]
      exact .tail _ mem_zip_fileEntries

/-- The last part of a path is looked up among the files. -/
theorem resolves_single (hm : Mounted mem fs img) (hl : Listable d) (hp : Parsed img lo hi d p)
    (c : Name) : ∃ r, findFile mem c p.fAm (wrap (fs.rawFsMemloc + p.fstart)) = some r ∧
      Resolves fs d p [c] r := by
  obtain ⟨n, files, subdirs⟩ := d
  obtain ⟨⟨hf, -⟩, ⟨-, hfl, hfs⟩, -⟩ := hp
  obtain ⟨hfn, -, -, -⟩ := hl
  have hlt := le_of_fileList hfl
  rw [hm.wrap_eq rfl (by omega : p.fstart < img.length), hf]
  obtain ⟨r, hr, ⟨rfl, hno⟩ | ⟨pre, f, post, hsplit, rfl, -, rfl⟩⟩ :
      ∃ r, findFile mem c (files.length % 2 ^ 16) (fs.rawFsMemloc + p.fstart) = some r ∧ _ :=
    findFile_take hm hfl (fun f hf => (hfn f hf).ne_nil) (files.length % 2 ^ 16)
  · refine ⟨none, hr, .inl ⟨rfl, fun hc => ?_⟩⟩
    obtain ⟨f, hf, hn⟩ := counted_single_iff.mp hc
    exact hno f hf hn
  · have hmem : f ∈ files.take (files.length % 2 ^ 16) := by rw [hsplit]; simp
    have hfiles : files = pre ++ f :: (post ++ files.drop (files.length % 2 ^ 16)) := by
      rw [← List.cons_append, ← List.append_assoc, ← hsplit, List.take_append_drop]
    have hz : (f, fileEntry (filesEnd p.fstart pre) f) ∈ List.zip files p.files := by
      rw [hfs, hfiles]
      exact mem_zip_fileEntries
    exact ⟨_, hr, .inr ⟨_, .here hmem, .here hz, rfl⟩⟩

/-- The list of the subdirectories, with what is parsed of each. -/
theorem ParsedAll.dirList : ∀ {lo hi off ds qs}, ParsedAll img lo hi off ds qs →
    DirList img off ((List.zip ds qs).map fun x => (x.1.name, x.2.built))
  | _, _, _, [], [], ⟨_, h⟩ => h
  | _, _, _, _ :: _, _ :: _, ⟨_, ⟨flgs, _, ha⟩, _, _, hqs⟩ =>
      ⟨flgs, ha, by rw [length_withName]; exact ParsedAll.dirList hqs⟩

/-- Any other part among the subdirectories, which the rest of the path then starts from. -/
theorem resolves_cons (ns : List Name) (hm : Mounted mem fs img) (hl : Listable d)
    (hp : Parsed img lo hi d p) (hns : ns ≠ []) (next : Nat → Option (Option File))
    (hnext : ∀ s q, (s, q) ∈ d.subdirs.zip p.dirs → s.name = c → ∀ o flgs,
      At img o (DirEntry.withName s.name q.built flgs) →
        ∃ r, next (fs.rawFsMemloc + o) = some r ∧ Resolves fs s q ns r) :
    ∃ r, ((findDir mem c p.dirhdrAm (wrap (fs.rawFsMemloc + p.dirstart))).bind fun
        | none => some none
        | some entry => next entry) = some r ∧ Resolves fs d p (c :: ns) r := by
  obtain ⟨n, files, subdirs⟩ := d
  obtain ⟨⟨-, hd⟩, -, hs⟩ := hp
  have ⟨_, hdn, _, _⟩ := hl
  have hlt := hs.le_length
  have hcount : subdirs.length % 2 ^ 16 ≤ subdirs.length := Nat.mod_le ..
  have hnames : ∀ x ∈ (subdirs.zip p.dirs).map fun x => (x.1.name, x.2.built), x.1 ≠ [] := by
    intro x hx
    obtain ⟨⟨s, q⟩, hz, rfl⟩ := List.mem_map.mp hx
    exact (hdn s (List.of_mem_zip hz).1).ne_nil
  -- the kernel sees the list up to its count; the parsed entries are beside it, one for each
  have htake : ((subdirs.zip p.dirs).take (subdirs.length % 2 ^ 16)).map Prod.fst =
      subdirs.take (subdirs.length % 2 ^ 16) := by
    rw [List.map_take, List.map_fst_zip (Nat.le_of_eq hs.length_eq.symm)]
  rw [hm.wrap_eq rfl (by omega : p.dirstart < img.length), hd]
  obtain ⟨r, hr, ⟨rfl, hno⟩ | ⟨x, hx, o, flgs, hxc, hat, rfl⟩⟩ :
      ∃ r, findDir mem c (subdirs.length % 2 ^ 16) (fs.rawFsMemloc + p.dirstart) = some r ∧ _ :=
    findDir_spec hm (ParsedAll.dirList hs) hnames (subdirs.length % 2 ^ 16)
  · refine ⟨none, by rw [hr]; rfl, .inl ⟨rfl, fun hc => ?_⟩⟩
    obtain ⟨s, hmem, hn, -⟩ := (counted_cons_iff hns).mp hc
    rw [DirNode.subdirs, ← htake] at hmem
    obtain ⟨⟨s', q⟩, hz, rfl⟩ := List.mem_map.mp hmem
    refine hno (s'.name, q.built) ?_ hn
    rw [← List.map_take]
    exact List.mem_map_of_mem hz
  · rw [← List.map_take] at hx
    obtain ⟨⟨s, q⟩, hz, rfl⟩ := List.mem_map.mp hx
    have hmem : s ∈ subdirs.take (subdirs.length % 2 ^ 16) := by
      rw [← htake]
      exact List.mem_map_of_mem hz
    have hz' := List.mem_of_mem_take hz
    obtain rfl : s.name = c := hxc
    obtain ⟨r, hr', hres⟩ := hnext s q hz' rfl o flgs hat
    refine ⟨r, by rw [hr]; exact hr', ?_⟩
    rcases hres with ⟨rfl, hno⟩ | ⟨e, hc, he, rfl⟩
    · refine .inl ⟨rfl, fun hc => ?_⟩
      obtain ⟨s', hmem', hn, hc'⟩ := (counted_cons_iff hns).mp hc
      obtain rfl := hl.dir_eq (List.mem_of_mem_take hmem') (List.mem_of_mem_take hmem) hn
      exact hno hc'
    · exact .inr ⟨e, .sub hmem hc, .sub hz' he, rfl⟩

/-- A part that is no name finds nothing. -/
theorem Resolves.none_of_nil_mem (hl : Listable d) (hns : [] ∈ ns) : Resolves fs d p ns none :=
  .inl ⟨rfl, fun hc => (hc.isName hl [] hns).ne_nil rfl⟩

/-- **What `findInDir` finds on the rest of a path**: the rest is split at every slash, and where a
part is empty there is nothing. -/
theorem findInDir_resolves (hm : Mounted mem fs img) (hlen : img.length ≤ 2 ^ 32) {d : DirNode}
    {p : RivFsData.DirEntry} {n : Name} {off flgs : Nat} (hl : Listable d) (hp : Parsed img lo hi d p)
    (hat : At img off (DirEntry.withName n p.built flgs)) (l : List UInt8) (hne : l ≠ []) :
    ∃ r, findInDir mem fs (fs.rawFsMemloc + off) ⟨l, l.length⟩ (findChar l slash != 0) = some r ∧
      Resolves fs d p (l.splitOn slash) r := by
  obtain ⟨⟨hd, hf⟩, hds, hfs⟩ := hp.fits hlen
  obtain ⟨hda, hfa, hdsa, hfsa⟩ :=
    latter_spec hm (at_withName_iff.mp hat).2 (b := p.built) ⟨hd, hf, hds, hfs⟩
  rcases findChar_cases l with ⟨hzero, hslash⟩ | ⟨c, l', rfl, hc, hcne, hfind⟩
  · -- no slash, or one in front: the rest is taken for the name of a file
    obtain ⟨r, hr, hres⟩ := resolves_single hm hl hp l
    refine ⟨r, ?_, ?_⟩
    · rw [findInDir]
      simp [hzero, latterOf_spec hm hat, hfa, hfsa, DirEntry.built, hr]
    · rcases hslash with hno | ⟨l', rfl⟩
      · rwa [List.splitOn_eq_singleton hno]
      · rw [List.splitOn_cons_eq_if_modifyHead, if_pos (by simp)]
        rcases hres with ⟨rfl, -⟩ | ⟨e, hcounted, -⟩
        · exact .none_of_nil_mem hl List.mem_cons_self
        · have := (hcounted.isName hl _ List.mem_cons_self).slash
          exact absurd List.mem_cons_self this
  · -- a part and a slash behind it: the part is the name of a directory
    have hlenc : c.length ≠ 0 := fun e => hcne (List.eq_nil_of_length_eq_zero e)
    have hdrop : (c ++ slash :: l').drop (c.length + 1) = l' := by
      rw [← List.drop_drop, List.drop_left]
      rfl
    have hsub : (c ++ slash :: l').length - (c.length + 1) = l'.length := by
      simp only [List.length_append, List.length_cons]
      omega
    have hle : (c ++ slash :: l').length ≤ c.length + 1 ↔ l' = [] := by
      rw [← List.length_eq_zero_iff, List.length_append, List.length_cons]
      omega
    obtain ⟨r, hr, hres⟩ := resolves_cons (c := c) (l'.splitOn slash) hm hl hp
      (List.splitOn_ne_nil _ _)
      (fun entry => if l' = [] then some none else
        findInDir mem fs entry ⟨l', l'.length⟩ (findChar l' slash != 0))
      fun s q hz hn o flgs hat' => by
        by_cases hl' : l' = []
        · exact ⟨none, if_pos hl', .none_of_nil_mem (hl.sub (List.of_mem_zip hz).1) (by simp [hl'])⟩
        · rw [if_neg hl']
          exact findInDir_resolves hm hlen (hl.sub (List.of_mem_zip hz).1) (hp.sub hz) hat' l' hl'
    refine ⟨r, ?_, ?_⟩
    · rw [findInDir]
      simp only [List.take_length, hfind, latterOf_spec hm hat, hda, hdsa, hlenc,
        Option.bind_eq_bind, Option.bind_some, bne_iff_ne, ne_eq, not_false_eq_true, if_true,
        List.take_left, hle, hdrop, hsub]
      rw [if_neg (by simp [hcne])]
      exact hr
    · rwa [List.splitOn_append_cons_self_of_not_mem hc]
termination_by l.length
decreasing_by
  subst_vars
  simp only [List.length_append, List.length_cons]
  omega

/-- The same image before both readers: mounted and checked by the one, parsed by the other. -/
structure Beside (mem : PMem) (fs : RivFs) (img : List UInt8) (hi : Nat) (root : DirNode)
    (p : RivFsData.DirEntry) : Prop where
  mounted : Mounted mem fs img
  listable : Listable root
  image : ParsedImage img hi root p
  fph : fs.fph = fs.rawFsMemloc + headerSize

theorem Mounted.length_le (hm : Mounted mem fs img) : img.length ≤ 2 ^ 32 :=
  Nat.le_trans (Nat.le_add_left ..) hm.fits

/-- The parts that `open` goes down: the path is split at every slash, unless one part is all there
is. -/
def openParts (l : List UInt8) : List Name :=
  match (l.splitOn slash).filter fun c => !c.isEmpty with
  | [c] => [c]
  | _ => l.splitOn slash

variable {root : DirNode}

/-- What the header of the root says. -/
theorem Beside.root_latter (h : Beside mem fs img hi root p) :
    dirHdrAm mem fs.fph = some p.dirhdrAm ∧ fAm mem fs.fph = some p.fAm ∧
      dirstart mem fs.fph = some p.dirstart ∧ fstart mem fs.fph = some p.fstart := by
  obtain ⟨⟨hd, hf⟩, hds, hfs⟩ := h.image.parsed.fits h.mounted.length_le
  have := latter_spec h.mounted h.image.fph ⟨hd, hf, hds, hfs⟩
  rwa [← h.fph] at this

/-- A slash in front, which `findChar` takes for none: the first part is looked up among the
directories, and nothing is looked for in it. -/
theorem resolves_slash (h : Beside mem fs img hi root p) (c : Name) (l' : List UInt8) :
    ((findDir mem c p.dirhdrAm (wrap (fs.rawFsMemloc + p.dirstart))).bind fun
        | none => some none
        | some _ => some none) = some (none : Option File) ∧
      Resolves fs root p ((slash :: l').splitOn slash) none := by
  obtain ⟨r, hr, hres⟩ := resolves_cons (c := c) [[]] h.mounted h.listable h.image.parsed (by simp)
    (fun _ => some none) fun s q hz _ _ _ _ =>
      ⟨none, rfl, .none_of_nil_mem (h.listable.sub (List.of_mem_zip hz).1) (by simp)⟩
  obtain rfl : r = none := by
    rcases hres with ⟨rfl, -⟩ | ⟨_, hcounted, -⟩
    · rfl
    · exact absurd rfl (hcounted.isName h.listable [] (by simp)).ne_nil
  refine ⟨hr, .none_of_nil_mem h.listable ?_⟩
  rw [List.splitOn_cons_eq_if_modifyHead, if_pos (by simp)]
  exact List.mem_cons_self

/-- Where parts follow the first, `open` goes down that, and then the path as it stands. -/
theorem open_below (h : Beside mem fs img hi root p) {fp : CStr} (hfp : fp.chars = slash :: l)
    {a b : FilePart} {rest : List FilePart} (hparts : fileParts l = a :: b :: rest) :
    ∃ r, RivFs.open mem fs fp = some r ∧ Resolves fs root p (l.splitOn slash) r := by
  obtain ⟨hda, -, hdsa, -⟩ := h.root_latter
  obtain ⟨hsv, hisDir⟩ := fileParts_splitOn l
  rw [hparts] at hsv
  rw [RivFs.open, hfp, if_neg (by simp [charAt]), List.tail_cons, hparts]
  simp only [hisDir hparts, Bool.not_true, Bool.false_eq_true, if_false, hda, hdsa,
    Option.bind_eq_bind, Option.bind_some]
  rcases findChar_cases l with ⟨hzero, hslash⟩ | ⟨c, l', rfl, hc, hcne, hfind⟩
  · -- a second part follows a slash, so the slash that `findChar` misses is in front
    obtain ⟨l', rfl⟩ : ∃ l', l = slash :: l' := by
      refine hslash.resolve_left fun hno => ?_
      rw [List.splitOn_eq_singleton hno] at hsv
      have := congrArg List.length hsv
      have hle := List.length_filter_le (fun c => !c.isEmpty) [l]
      simp at this hle
      omega
    obtain ⟨hr, hres⟩ := resolves_slash h a.sv l'
    refine ⟨none, ?_, hres⟩
    simp only [hzero, if_true]
    exact hr
  · have hfilter : a.sv :: b.sv :: rest.map (·.sv) =
        c :: (l'.splitOn slash).filter fun c => !c.isEmpty := by
      rw [List.splitOn_append_cons_self_of_not_mem hc,
        List.filter_cons_of_pos (by simpa using hcne)] at hsv
      exact hsv
    obtain ⟨rfl, hrest⟩ := List.cons.inj hfilter
    have hl' : l' ≠ [] := by
      rintro rfl
      simp at hrest
    have hlenc : a.sv.length ≠ 0 := fun e => hcne (List.eq_nil_of_length_eq_zero e)
    have hdrop : (slash :: (a.sv ++ slash :: l')).drop (1 + a.sv.length + 1) = l' := by
      rw [Nat.add_comm 1, List.drop_succ_cons, ← List.drop_drop, List.drop_left]
      rfl
    have hstrlen : strlen fp - 1 - a.sv.length - 1 = l'.length := by
      rw [strlen, hfp]
      simp only [List.length_append, List.length_cons]
      omega
    obtain ⟨r, hr, hres⟩ := resolves_cons (c := a.sv) (l'.splitOn slash) h.mounted h.listable
      h.image.parsed (List.splitOn_ne_nil _ _)
      (fun entry => findInDir mem fs entry ⟨l', l'.length⟩ (findChar l' slash != 0))
      fun s q hz _ o flgs hat => findInDir_resolves h.mounted h.mounted.length_le
        (h.listable.sub (List.of_mem_zip hz).1) (h.image.parsed.sub hz) hat l' hl'
    refine ⟨r, ?_, ?_⟩
    · simp only [hfind, hlenc, if_false, hdrop, hstrlen]
      exact hr
    · rwa [List.splitOn_append_cons_self_of_not_mem hc]

/-- **What `open` finds**, on every path. -/
theorem open_resolves (h : Beside mem fs img hi root p) {fp : CStr} (hfp : fp.chars = slash :: l) :
    ∃ r, RivFs.open mem fs fp = some r ∧ Resolves fs root p (openParts l) r := by
  obtain ⟨-, hfa, -, hfsa⟩ := h.root_latter
  have hsv := (fileParts_splitOn l).1
  rcases hparts : fileParts l with _ | ⟨a, _ | ⟨b, rest⟩⟩ <;> rw [hparts] at hsv
  · obtain ⟨c, cs, hcs⟩ := List.exists_cons_of_ne_nil (List.splitOn_ne_nil slash l)
    have hempty : c = [] := by
      have := List.filter_eq_nil_iff.mp hsv.symm c (by simp [hcs])
      simpa using this
    refine ⟨none, ?_, .none_of_nil_mem h.listable ?_⟩
    · rw [RivFs.open, hfp, if_neg (by simp [charAt]), List.tail_cons, hparts]
    · rw [openParts, ← hsv, hcs, hempty]
      exact List.mem_cons_self
  · obtain ⟨r, hr, hres⟩ := resolves_single h.mounted h.listable h.image.parsed a.sv
    refine ⟨r, ?_, ?_⟩
    · rw [RivFs.open, hfp, if_neg (by simp [charAt]), List.tail_cons, hparts]
      simp only [hfa, hfsa, Option.bind_eq_bind, Option.bind_some]
      exact hr
    · rw [openParts, ← hsv]
      exact hres
  · have hopen : openParts l = l.splitOn slash := by
      rw [openParts, ← hsv]
      rfl
    rw [hopen]
    exact open_below h hfp hparts

/-! ### Places of entries -/

variable {ns' : List Name} {e e' : RivFsData.FileEntry}

/-- Files of one list that are at the same place are the same. -/
theorem fileEntries_inj : ∀ {off files f e f' e'}, FileList img off files →
    (f, e) ∈ List.zip files (fileEntries off files) →
      (f', e') ∈ List.zip files (fileEntries off files) → e.offset = e'.offset → f = f'
  | off, g :: files, f, e, f', e', ⟨_, hl⟩, hz, hz', he => by
      have hpos := length_genf g.conts g.name
      rcases List.mem_cons.mp hz with h | h <;> rcases List.mem_cons.mp hz' with h' | h'
      · exact (Prod.mk.inj h).1.trans (Prod.mk.inj h').1.symm
      · obtain ⟨rfl, rfl⟩ := Prod.mk.inj h
        obtain ⟨-, -, hlo, -⟩ := fileEntries_zip hl h'
        simp only [fileEntry] at he
        omega
      · obtain ⟨rfl, rfl⟩ := Prod.mk.inj h'
        obtain ⟨-, -, hlo, -⟩ := fileEntries_zip hl h
        simp only [fileEntry] at he
        omega
      · exact fileEntries_inj hl h h' he

/-- Two subdirectories are the same, or all of one lies before all of the other. -/
theorem ParsedAll.apart : ∀ {lo hi off ds qs s q s' q'}, ParsedAll img lo hi off ds qs →
    (s, q) ∈ List.zip ds qs → (s', q') ∈ List.zip ds qs → (s, q) = (s', q') ∨
      ∃ mid, (Parsed img lo mid s q ∧ Parsed img mid hi s' q') ∨
        (Parsed img lo mid s' q' ∧ Parsed img mid hi s q)
  | lo, hi, off, d :: ds, p :: qs, s, q, s', q', ⟨_, _, mid, hq, hqs⟩, hz, hz' => by
      rcases List.mem_cons.mp hz with h | h <;> rcases List.mem_cons.mp hz' with h' | h'
      · exact .inl (h.trans h'.symm)
      · obtain ⟨rfl, rfl⟩ := Prod.mk.inj h
        exact .inr ⟨mid, .inl ⟨hq, hqs.mem h'⟩⟩
      · obtain ⟨rfl, rfl⟩ := Prod.mk.inj h'
        exact .inr ⟨mid, .inr ⟨hq, hqs.mem h⟩⟩
      · refine (ParsedAll.apart hqs h h').imp_right ?_
        rintro ⟨m, ⟨h₁, h₂⟩ | ⟨h₁, h₂⟩⟩
        · exact ⟨m, .inl ⟨h₁.mono_lo hq.le, h₂⟩⟩
        · exact ⟨m, .inr ⟨h₁.mono_lo hq.le, h₂⟩⟩

/-- The files below a directory lie where it says. -/
theorem entryOf_within (h : EntryOf d p ns e) :
    ∀ {lo hi}, Parsed img lo hi d p → lo ≤ e.offset ∧ e.offset < hi := by
  induction h with
  | @here d p f e hz =>
      intro lo hi hp
      obtain ⟨n, files, subdirs⟩ := d
      obtain ⟨-, ⟨hlo, hfl, hfs⟩, hs⟩ := hp
      rw [hfs] at hz
      obtain ⟨-, -, hlo', hhi⟩ := fileEntries_zip hfl hz
      exact ⟨Nat.le_trans hlo hlo', Nat.lt_of_lt_of_le hhi hs.le⟩
  | sub hz _ ih => exact fun hp => ih (hp.sub hz)

/-- **Entries at different names lie at different places.** -/
theorem offset_inj (h : EntryOf d p ns e) : ∀ {lo hi ns' e'}, Parsed img lo hi d p →
    EntryOf d p ns' e' → e.offset = e'.offset → ns = ns' := by
  -- a file of the directory lies before what its subdirectories hold
  have hbefore : ∀ {d p f e s q ns' e' lo hi}, Parsed img lo hi d p →
      (f, e) ∈ d.files.zip p.files → (s, q) ∈ d.subdirs.zip p.dirs → EntryOf s q ns' e' →
        e.offset < e'.offset := by
    intro d p f e s q ns' e' lo hi hp hz hz' h'
    obtain ⟨n, files, subdirs⟩ := d
    obtain ⟨-, ⟨-, hfl, hfs⟩, hs⟩ := hp
    rw [DirNode.files, hfs] at hz
    obtain ⟨-, -, -, hhi⟩ := fileEntries_zip hfl hz
    exact Nat.lt_of_lt_of_le hhi (entryOf_within h' (hs.mem hz')).1
  induction h with
  | @here d p f e hz =>
      intro lo hi ns' e' hp h' he
      cases h' with
      | @here _ _ f' _ hz' =>
          obtain ⟨n, files, subdirs⟩ := d
          obtain ⟨-, ⟨-, hfl, hfs⟩, -⟩ := hp
          rw [DirNode.files, hfs] at hz hz'
          rw [fileEntries_inj hfl hz hz' he]
      | sub hz' h' =>
          have := hbefore hp hz hz' h'
          omega
  | @sub d s p q ns e hz h ih =>
      intro lo hi ns' e' hp h' he
      cases h' with
      | here hz' =>
          have := hbefore hp hz' hz h
          omega
      | @sub _ s' _ q' ns' _ hz' h' =>
          have hsame : (s, q) = (s', q') := by
            obtain ⟨n, files, subdirs⟩ := d
            obtain ⟨-, -, hs⟩ := hp
            rcases ParsedAll.apart hs hz hz' with hsame | ⟨mid, ⟨h₁, h₂⟩ | ⟨h₁, h₂⟩⟩
            · exact hsame
            · have := (entryOf_within h h₁).2
              have := (entryOf_within h' h₂).1
              omega
            · have := (entryOf_within h' h₁).2
              have := (entryOf_within h h₂).1
              omega
          obtain ⟨rfl, rfl⟩ := Prod.mk.inj hsame
          rw [ih (hp.sub hz) h' he]

/-- What is zipped with an element is determined by it where the elements differ. -/
theorem zip_unique {α β : Type} {f : α → Name} : ∀ {as : List α} {bs : List β} {a a' b b'},
    (as.map f).Nodup → (a, b) ∈ as.zip bs → (a', b') ∈ as.zip bs → f a = f a' → (a, b) = (a', b')
  | x :: as, y :: bs, a, a', b, b', hnd, hz, hz', he => by
      obtain ⟨hx, hnd⟩ := List.nodup_cons.mp hnd
      rcases List.mem_cons.mp hz with h | h <;> rcases List.mem_cons.mp hz' with h' | h'
      · exact h.trans h'.symm
      · obtain ⟨rfl, -⟩ := Prod.mk.inj h
        exact absurd (he ▸ List.mem_map_of_mem (List.of_mem_zip h').1) hx
      · obtain ⟨rfl, -⟩ := Prod.mk.inj h'
        exact absurd (he ▸ List.mem_map_of_mem (List.of_mem_zip h).1) hx
      · exact zip_unique hnd h h' he

/-- Names lead to one entry only. -/
theorem entryOf_unique (h : EntryOf d p ns e) :
    ∀ {ns' e'}, Listable d → ns = ns' → EntryOf d p ns' e' → e = e' := by
  induction h with
  | @here d p f e hz =>
      rintro ns' e' ⟨-, -, hnd, -⟩ hns (⟨hz'⟩ | ⟨_, h'⟩)
      · exact (Prod.mk.inj (zip_unique hnd.of_append_left hz hz' (List.cons.inj hns).1)).2
      · obtain ⟨-, rfl⟩ := List.cons.inj hns
        cases h'
  | @sub d s p q ns e hz h ih =>
      rintro ns' e' hl hns (⟨hz'⟩ | ⟨hz', h'⟩)
      · obtain ⟨-, rfl⟩ := List.cons.inj hns
        cases h
      · obtain ⟨hname, hrest⟩ := List.cons.inj hns
        have hl' := hl
        obtain ⟨-, -, hnd, -⟩ := hl'
        obtain ⟨rfl, rfl⟩ := Prod.mk.inj (zip_unique hnd.of_append_right hz hz' hname)
        exact ih (hl.sub (List.of_mem_zip hz).1) hrest h'

/-! ### Both readers -/

/-- The path has a single part, or is made of its parts alone: no slash is repeated, and none is at
the end. -/
def Plain (path : Str) : Prop :=
  (RivFsImage.parts path).length = 1 ∨ [] ∉ path.tail.splitOn '/'

/-- Where entries that read as the parts of the path lead to a file, the path is plain, the entries
are spelled like the parts, and the counts cover them.  Where they do not, no entries that are
spelled like the parts of a plain path, and that the counts cover, are hidden behind others. -/
def ResolvesAlike (root : DirNode) (path : Str) : Prop :=
  let cs := (RivFsImage.parts path).map utf8
  match readAs root (RivFsImage.parts path) with
  | some ns => Plain path ∧ ns = cs ∧ Counted root cs
  | none => ¬ (Plain path ∧ Counted root cs)

/-- A `File` of the kernel and a `FileEntry` of the Python reader are the same entry. -/
def Denotes (fs : RivFs) (f : File) (e : RivFsData.FileEntry) : Prop :=
  f.startPos = fs.rawFsMemloc + e.offset ∧ f.contsSvPos + 4 = fs.rawFsMemloc + e.contentOffset

/-- The kernel opens a file exactly when the Python reader finds one, and it is the same. -/
def Alike (mem : PMem) (fs : RivFs) (i : RivFsImage) (fp : CStr) (path : Str) : Prop :=
  ∃ r, RivFs.open mem fs fp = some r ∧ ((r = none ∧ i.find path = none) ∨
    ∃ f e, r = some f ∧ i.find path = some e ∧ Denotes fs f e)

theorem denotes_fileOf (h : EntryOf d p ns e) :
    ∀ {lo hi}, Parsed img lo hi d p → Denotes fs (fileOf fs e) e := by
  induction h with
  | @here d p f e hz =>
      intro lo hi hp
      obtain ⟨n, files, subdirs⟩ := d
      obtain ⟨-, ⟨-, hfl, hfs⟩, -⟩ := hp
      rw [DirNode.files, hfs] at hz
      obtain ⟨he, -⟩ := fileEntries_zip hfl hz
      refine ⟨rfl, ?_⟩
      rw [fileOf, he, fileEntry]
      simp only
      omega
  | sub hz _ ih => exact fun hp => ih (hp.sub hz)

variable {path : Str}

theorem parts_cons (t : Str) :
    RivFsImage.parts ('/' :: t) = (t.splitOn '/').filter fun p => !p.isEmpty := by
  rw [RivFsImage.parts, List.splitOn_cons_eq_if_modifyHead, if_pos (by simp),
    List.filter_cons_of_neg (by simp)]

theorem splitOn_utf8_slash (t : Str) : (utf8 t).splitOn slash = (t.splitOn '/').map utf8 :=
  splitOn_utf8 (by decide : '/'.toNat < 128) t

/-- The kernel goes down the parts of a plain path, and down an empty part otherwise. -/
theorem openParts_utf8 (t : Str) :
    (Plain ('/' :: t) ∧ openParts (utf8 t) = (RivFsImage.parts ('/' :: t)).map utf8) ∨
      (¬ Plain ('/' :: t) ∧ [] ∈ openParts (utf8 t)) := by
  have hfilter : ((utf8 t).splitOn slash).filter (fun c => !c.isEmpty) =
      (RivFsImage.parts ('/' :: t)).map utf8 := by
    have hempty : (fun c => !c.isEmpty) ∘ utf8 = fun p : Str => !p.isEmpty := by
      funext s
      cases hs : utf8 s with
      | nil => simp [utf8_eq_nil_iff.mp hs, utf8]
      | cons b bs =>
          have : s ≠ [] := fun e => by simp [e, utf8] at hs
          simp [hs, this]
    rw [splitOn_utf8_slash, List.filter_map, hempty, parts_cons]
  -- `/` is ASCII, so the bytes are split where the characters are
  by_cases hone : (RivFsImage.parts ('/' :: t)).length = 1
  · obtain ⟨x, hx⟩ := List.length_eq_one_iff.mp hone
    refine .inl ⟨.inl hone, ?_⟩
    rw [openParts, hfilter, hx]
    rfl
  · have hopen : openParts (utf8 t) = (t.splitOn '/').map utf8 := by
      rw [openParts, hfilter]
      split
      · next c hc =>
          have := congrArg List.length hc
          simp only [List.length_map, List.length_singleton] at this
          exact absurd this hone
      · exact splitOn_utf8_slash t
    rw [hopen]
    by_cases hnil : [] ∈ t.splitOn '/'
    · refine .inr ⟨?_, List.mem_map.mpr ⟨[], hnil, rfl⟩⟩
      rintro (h | h)
      · exact hone h
      · exact h hnil
    · refine .inl ⟨.inr hnil, ?_⟩
      rw [parts_cons, List.filter_eq_self.mpr]
      intro p hp
      have : p ≠ [] := fun e => hnil (e ▸ hp)
      simpa using this

/-- **The readers agree on a path exactly when its parts are read alike.** -/
theorem alike_iff (h : Beside mem fs img hi root p) {fp : CStr} (hpath : path.head? = some '/')
    (hfp : fp.chars = utf8 path) :
    Alike mem fs ⟨img, mainHeader, p⟩ fp path ↔ ResolvesAlike root path := by
  obtain ⟨t, rfl⟩ : ∃ t, path = '/' :: t := by
    cases path with
    | nil => cases hpath
    | cons c t => exact ⟨t, by cases hpath; rfl⟩
  have hslash : utf8 ('/' :: t) = slash :: utf8 t := rfl
  obtain ⟨r, hopen, hres⟩ := open_resolves h (hfp.trans hslash)
  -- what the kernel finds, in terms of the parts
  have hkernel : (r = none ∧ ¬ (Plain ('/' :: t) ∧
      Counted root ((RivFsImage.parts ('/' :: t)).map utf8))) ∨
        ∃ e, (Plain ('/' :: t) ∧ Counted root ((RivFsImage.parts ('/' :: t)).map utf8)) ∧
          EntryOf root p ((RivFsImage.parts ('/' :: t)).map utf8) e ∧ r = some (fileOf fs e) := by
    rcases openParts_utf8 t with ⟨hplain, hparts⟩ | ⟨hplain, hnil⟩
    · rw [hparts] at hres
      rcases hres with ⟨hr, hno⟩ | ⟨e, hc, he, hr⟩
      · exact .inl ⟨hr, fun hc => hno hc.2⟩
      · exact .inr ⟨e, ⟨hplain, hc⟩, he, hr⟩
    · rcases hres with ⟨hr, -⟩ | ⟨e, hc, -⟩
      · exact .inl ⟨hr, fun hc => hplain hc.1⟩
      · exact absurd rfl (hc.isName h.listable [] hnil).ne_nil
  rcases findIn_parsed (RivFsImage.parts ('/' :: t)) h.image.parsed with
    ⟨hread, hfind⟩ | ⟨ns, e, hread, hfind, hent⟩
  · simp only [ResolvesAlike, hread]
    constructor
    · rintro ⟨r', hopen', ⟨rfl, -⟩ | ⟨f, e, -, hsome, -⟩⟩
      · rcases hkernel with ⟨-, hno⟩ | ⟨e, -, -, rfl⟩
        · exact hno
        · cases hopen.symm.trans hopen'
      · cases hfind.symm.trans hsome
    · intro hno
      rcases hkernel with ⟨rfl, -⟩ | ⟨e, hk, -, -⟩
      · exact ⟨none, hopen, .inl ⟨rfl, hfind⟩⟩
      · exact absurd hk hno
  · simp only [ResolvesAlike, hread]
    constructor
    · rintro ⟨r', hopen', ⟨-, hnone⟩ | ⟨f, e', rfl, hsome, hden⟩⟩
      · cases hfind.symm.trans hnone
      · obtain rfl : e = e' := Option.some.inj (hfind.symm.trans hsome)
        obtain rfl : r = some f := Option.some.inj (hopen.symm.trans hopen')
        rcases hkernel with ⟨hr, -⟩ | ⟨e', ⟨hplain, hcounted⟩, hent', hr⟩
        · cases hr
        · -- one place, so the names the Python reader went by are the parts
          obtain rfl : f = fileOf fs e' := Option.some.inj hr
          have hoff : e.offset = e'.offset := Nat.add_left_cancel hden.1.symm
          exact ⟨hplain, offset_inj hent h.image.parsed hent' hoff, hcounted⟩
    · rintro ⟨hplain, rfl, hcounted⟩
      rcases hkernel with ⟨-, hno⟩ | ⟨e', -, hent', rfl⟩
      · exact absurd ⟨hplain, hcounted⟩ hno
      · obtain rfl := entryOf_unique hent h.listable rfl hent'
        exact ⟨_, hopen, .inr ⟨_, e, rfl, hfind, denotes_fileOf hent h.image.parsed⟩⟩

/-- Every image can be put before both readers. -/
theorem exists_beside (junk : Nat → Nat) {frames : Nat} (hl : Listable root)
    (hm : Mounted mem fs (main junk root)) (hnest : nesting root < frames) :
    ∃ fs' hi p w, checkCorrectness mem fs = some (true, fs') ∧
      RivFsImage.init (main junk root) frames = .ok (⟨main junk root, mainHeader, p⟩, w) ∧
        Beside mem fs' (main junk root) hi root p ∧ (Representable root → w = []) := by
  obtain ⟨hi, p, hp⟩ := exists_parsedImage junk root hm.length_le
  obtain ⟨w, hinit, hw⟩ := init_parsed hp hm.length_le hl hnest
  obtain ⟨⟨hd, hf⟩, hds, hfs⟩ := hp.parsed.fits hm.length_le
  have hfstart : dataStart ≤ p.fstart := by
    have := hp.parsed
    obtain ⟨n, files, subdirs⟩ := root
    exact this.2.1.1
  have hpos : 0 < dataStart := by decide
  exact ⟨_, hi, p, w, checkCorrectness_spec hm hp.header hp.fph ⟨hd, hf, hds, hfs⟩
    (Nat.ne_of_gt (Nat.lt_of_lt_of_le hpos hp.dirstart))
    (Nat.ne_of_gt (Nat.lt_of_lt_of_le hpos hfstart)), hinit,
    ⟨⟨hm.loaded, hm.size, hm.fits⟩, hl, hp, rfl⟩, hw⟩

/-- Where the counts fit and the names are well-formed, a path is resolved alike exactly when it is
plain or names no file. -/
theorem resolvesAlike_iff (hr : Representable root) (hu : Utf8Named root) :
    ResolvesAlike root path ↔
      Plain path ∨ ∀ conts, ¬ HasFile root ((RivFsImage.parts path).map utf8) conts := by
  rcases readAs_utf8 (RivFsImage.parts path) hu hr.listable with
    ⟨hread, hno⟩ | ⟨hread, conts, hfile⟩
  · simp only [ResolvesAlike, hread]
    refine iff_of_true (fun hk => ?_) (.inr hno)
    obtain ⟨conts, hfile⟩ := hr.counted_iff.mp hk.2
    exact hno conts hfile
  · simp only [ResolvesAlike, hread]
    constructor
    · exact fun hk => .inl hk.1
    · rintro (hplain | hno)
      · exact ⟨hplain, trivial, hr.counted_iff.mpr ⟨conts, hfile⟩⟩
      · exact absurd hfile (hno conts)

/-- **The two readers, on every image and every path that starts with a slash.** -/
theorem open_find_iff (junk : Nat → Nat) {root : DirNode} {frames : Nat} (hl : Listable root)
    (hm : Mounted mem fs (main junk root)) (hnest : nesting root < frames) :
    ∃ fs' i w, checkCorrectness mem fs = some (true, fs') ∧
      RivFsImage.init (main junk root) frames = .ok (i, w) ∧
        ∀ (path : Str) (fp : CStr), path.head? = some '/' → fp.chars = utf8 path →
          (Alike mem fs' i fp path ↔ ResolvesAlike root path) := by
  obtain ⟨fs', hi, p, w, hcheck, hinit, hbeside, -⟩ := exists_beside junk hl hm hnest
  exact ⟨fs', _, w, hcheck, hinit, fun path fp hpath hfp => alike_iff hbeside hpath hfp⟩

/-- On `/d/b` they agree. -/
theorem open_find_small : ∃ fs' i w,
    checkCorrectness (imageMem (main (fun _ => 0) smallTree)) ⟨0x100000, 101, 0⟩ = some (true, fs') ∧
      RivFsImage.init (main (fun _ => 0) smallTree) 1000 = .ok (i, w) ∧
        Alike (imageMem (main (fun _ => 0) smallTree)) fs' i (.lit ['/', 'd', '/', 'b'])
          ['/', 'd', '/', 'b'] := by
  obtain ⟨fs', i, w, hcheck, hinit, halike⟩ := open_find_iff (fun _ => 0)
    smallTree_representable.listable smallTree_mounted (by decide : nesting smallTree < 1000)
  refine ⟨fs', i, w, hcheck, hinit, (halike _ _ rfl rfl).mpr ?_⟩
  refine (resolvesAlike_iff smallTree_representable smallTree_utf8Named).mpr (.inl (.inr ?_))
  simp [List.splitOn_cons_eq_if_modifyHead]

/-- On `/d//b` the Python reader finds the file, and the kernel does not. -/
theorem open_misses_repeated : ∃ fs' i,
    checkCorrectness (imageMem (main (fun _ => 0) smallTree)) ⟨0x100000, 101, 0⟩ = some (true, fs') ∧
      RivFsImage.init (main (fun _ => 0) smallTree) 1000 = .ok (i, []) ∧
        HasFile smallTree [[100], [98]] [3] ∧
          ¬ Alike (imageMem (main (fun _ => 0) smallTree)) fs' i (.lit ['/', 'd', '/', '/', 'b'])
            ['/', 'd', '/', '/', 'b'] := by
  obtain ⟨fs', hi, p, w, hcheck, hinit, hbeside, hw⟩ := exists_beside (fun _ => 0)
    smallTree_representable.listable smallTree_mounted (by decide : nesting smallTree < 1000)
  rw [hw smallTree_representable] at hinit
  refine ⟨fs', _, hcheck, hinit, smallTree_hasFile, fun halike => ?_⟩
  have hparts : RivFsImage.parts ['/', 'd', '/', '/', 'b'] = [['d'], ['b']] := by
    simp [RivFsImage.parts, List.splitOn_cons_eq_if_modifyHead]
  rcases (resolvesAlike_iff smallTree_representable smallTree_utf8Named).mp
    ((alike_iff hbeside rfl rfl).mp halike) with (hone | hnil) | hno
  · rw [hparts] at hone
    cases hone
  · exact hnil (by simp [List.splitOn_cons_eq_if_modifyHead])
  · rw [hparts] at hno
    exact hno [3] smallTree_hasFile

end RivFs
end RivOS
