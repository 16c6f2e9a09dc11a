import RivOS.InitRamFs.Lookup

/-!
# InitRamFs — Directory iterators

`getDirIt` walks down a path with the entry count of the root at every level.  `Reach k` is a walk
that looks at the first `k` subdirectories only, and `getDirIt_spec` says that this is what it
finds.  From the iterator of a directory the two `GetNext` calls, in any order, give the names of
its list one after the other, and then nothing any more (`iterate_spec`).

* `getDirIt_exact_iff`: `getDirIt` is right about a path exactly when the directory it names, if it
  names one, can be reached with the count of the root.
-/

namespace RivOS

variable {k : Nat} {c : Name} {cs : List Name} {d t : DirNode}

/-- `HasDir` past directories among the first `k` of their siblings only. -/
inductive Reach (k : Nat) : DirNode → List Name → DirNode → Prop where
  | here {d : DirNode} : Reach k d [] d
  | sub {d s t : DirNode} {cs : List Name} (h : s ∈ d.subdirs.take k) (hs : Reach k s cs t) :
      Reach k d (s.name :: cs) t

theorem Reach.hasDir (h : Reach k d cs t) : HasDir d cs t := by
  induction h with
  | here => exact .here
  | sub h _ ih => exact .sub (List.mem_of_mem_take h) ih

theorem reach_cons_iff :
    Reach k d (c :: cs) t ↔ ∃ s ∈ d.subdirs.take k, s.name = c ∧ Reach k s cs t := by
  constructor
  · rintro (_ | ⟨h, hs⟩)
    exact ⟨_, h, rfl, hs⟩
  · rintro ⟨s, h, rfl, hs⟩
    exact .sub h hs

/-- The path of a directory: `/`, or `/c₁/…/cₖ`. -/
def dirPath (cs : List Name) : List UInt8 := slash :: (pathOf cs).tail

namespace RivFs

open Genfs

/-! ### Calls on an iterator -/

inductive Call where
  | dir
  | file
deriving DecidableEq

/-- The name a call returned, read from the image. -/
def nameOf (mem : PMem) : Option StringView → Option (Option Name)
  | none => some none
  | some sv => (peek mem sv.raw sv.len).map some

/-- The names that a sequence of calls returns, of the directories and of the files. -/
def iterate (mem : PMem) (fs : RivFs) :
    List Call → DirIterator → Option (List (Option Name) × List (Option Name))
  | [], _ => some ([], [])
  | .dir :: calls, dirit => do
      let (r, dirit) ← dirItGetNextDir mem fs dirit
      let n ← nameOf mem (r.map (·.dirname))
      let (ds, fs) ← iterate mem fs calls dirit
      return (n :: ds, fs)
  | .file :: calls, dirit => do
      let (r, dirit) ← dirItGetNextFile mem fs dirit
      let n ← nameOf mem (r.map (·.filename))
      let (ds, fs) ← iterate mem fs calls dirit
      return (ds, n :: fs)

/-- What `n` calls should give on a list of names: each once, in order, and then errors. -/
def listing (names : List Name) (n : Nat) : List (Option Name) := (List.range n).map (names[·]?)

theorem listing_nil_succ (n : Nat) : listing [] (n + 1) = none :: listing [] n := by
  simp [listing, List.range_succ_eq_map, Function.comp_def]

theorem listing_cons_succ (a : Name) (names : List Name) (n : Nat) :
    listing (a :: names) (n + 1) = some a :: listing names n := by
  simp [listing, List.range_succ_eq_map, Function.comp_def]

variable {mem : PMem} {fs : RivFs} {img : List UInt8} {off : Nat} {b : BuiltDir}

/-- The iterator stands in front of the lists `ps` and `files`. -/
structure Before (img : List UInt8) (dirit : DirIterator) (ps : List (Name × BuiltDir))
    (files : List FileNode) : Prop where
  dirList : DirList img dirit.dirPos ps
  dirsRemaining : dirit.dirsRemaining = ps.length
  dirNames : ∀ p ∈ ps, p.1 ≠ []
  fileList : FileList img dirit.filePos files
  filesRemaining : dirit.filesRemaining = files.length
  fileNames : ∀ f ∈ files, f.name ≠ []

variable {dirit : DirIterator} {p : Name × BuiltDir} {ps : List (Name × BuiltDir)} {f : FileNode}
  {files : List FileNode}

theorem nextDir_nil (h : Before img dirit [] files) :
    dirItGetNextDir mem fs dirit = some (none, dirit) := by
  have hcount : dirit.dirsRemaining = 0 := h.dirsRemaining
  rw [dirItGetNextDir, if_pos hcount]

theorem nextDir_cons (hm : Mounted mem fs img) (h : Before img dirit (p :: ps) files) :
    ∃ dd dirit', dirItGetNextDir mem fs dirit = some (some dd, dirit') ∧
      nameOf mem (some dd.dirname) = some (some p.1) ∧
        dd.dir.constPos = dirit.dirPos + (4 + p.1.length) ∧ Before img dirit' ps files := by
  obtain ⟨flgs, hp, hl⟩ := h.dirList
  obtain ⟨⟨hlen, hname⟩, -⟩ := at_withName_iff.mp hp
  have hend := le_of_dirList hl
  have hbase := hm.fits
  rw [length_withName] at hl hend
  have hne : p.1.length ≠ 0 := fun e =>
    h.dirNames p List.mem_cons_self (List.eq_nil_of_length_eq_zero e)
  have hcount : dirit.dirsRemaining ≠ 0 := by simp [h.dirsRemaining]
  have hw₀ : wrap (fs.rawFsMemloc + dirit.dirPos) = fs.rawFsMemloc + dirit.dirPos :=
    hm.wrap_eq rfl (by omega)
  have hw₁ : wrap (dirit.dirPos + 4) = dirit.dirPos + 4 := Nat.mod_eq_of_lt (by omega)
  have hw₂ : wrap (dirit.dirPos + 4 + p.1.length) = dirit.dirPos + 4 + p.1.length :=
    Nat.mod_eq_of_lt (by omega)
  have hw₃ : wrap (dirit.dirPos + 4 + p.1.length + sizeofFph) =
      dirit.dirPos + (4 + p.1.length + 16) := by
    rw [wrap, sizeofFph, Nat.mod_eq_of_lt (by omega)]
    omega
  have hw₄ : wrap (fs.rawFsMemloc + (dirit.dirPos + 4)) = fs.rawFsMemloc + (dirit.dirPos + 4) :=
    hm.wrap_eq rfl (by omega)
  refine ⟨⟨⟨fs.rawFsMemloc + (dirit.dirPos + 4), p.1.length⟩,
      ⟨dirit.dirPos, dirit.dirPos + 4 + p.1.length⟩⟩,
    { dirit with
      dirPos := dirit.dirPos + (4 + p.1.length + 16)
      dirsRemaining := ps.length }, ?_, ?_, ?_⟩
  · rw [dirItGetNextDir, if_neg hcount, hw₀]
    simp only [hm.u32At hlen (by omega), hw₁, hw₂, hw₃, hw₄, hne, if_false, Option.bind_eq_bind,
      Option.bind_some, h.dirsRemaining, List.length_cons, Nat.add_sub_cancel]
    rfl
  · simp only [nameOf, (hm.loaded.at hname).peek, Option.map_some]
  · exact ⟨Nat.add_assoc .., hl, rfl, fun q hq => h.dirNames q (.tail p hq), h.fileList,
      h.filesRemaining, h.fileNames⟩

theorem nextFile_nil (h : Before img dirit ps []) :
    dirItGetNextFile mem fs dirit = some (none, dirit) := by
  have hcount : dirit.filesRemaining = 0 := h.filesRemaining
  rw [dirItGetNextFile, if_pos hcount]

theorem nextFile_cons (hm : Mounted mem fs img) (h : Before img dirit ps (f :: files)) :
    ∃ fd dirit', dirItGetNextFile mem fs dirit = some (some fd, dirit') ∧
      nameOf mem (some fd.filename) = some (some f.name) ∧
        fd.file = ⟨dirit.filePos, fs.rawFsMemloc + (dirit.filePos + (4 + f.name.length))⟩ ∧
          Before img dirit' ps files := by
  obtain ⟨hf, hl⟩ := h.fileList
  have hend := le_of_fileList hl
  have hbase := hm.fits
  rw [length_genf] at hl hend
  obtain ⟨⟨hlen, hname⟩, hclen, -⟩ := at_genf_iff.mp hf
  have hne : f.name.length ≠ 0 := fun e =>
    h.fileNames f List.mem_cons_self (List.eq_nil_of_length_eq_zero e)
  have hcount : dirit.filesRemaining ≠ 0 := by simp [h.filesRemaining]
  -- the positions count from the image's start, the addresses from 0; neither wraps around
  have hw₀ : wrap (fs.rawFsMemloc + dirit.filePos) = fs.rawFsMemloc + dirit.filePos :=
    hm.wrap_eq rfl (by omega)
  have hw₁ : wrap (dirit.filePos + 4) = dirit.filePos + 4 := Nat.mod_eq_of_lt (by omega)
  have hw₂ : wrap (dirit.filePos + 4 + f.name.length) = dirit.filePos + (4 + f.name.length) := by
    rw [wrap, Nat.mod_eq_of_lt (by omega), Nat.add_assoc]
  have hw₃ : wrap (fs.rawFsMemloc + (dirit.filePos + (4 + f.name.length))) =
      fs.rawFsMemloc + (dirit.filePos + (4 + f.name.length)) := hm.wrap_eq rfl (by omega)
  have hw₄ : wrap (dirit.filePos + (4 + f.name.length) + 4) =
      dirit.filePos + (4 + f.name.length) + 4 := Nat.mod_eq_of_lt (by omega)
  have hw₅ : wrap (dirit.filePos + (4 + f.name.length) + 4 + f.conts.length) =
      dirit.filePos + (4 + f.name.length + (4 + f.conts.length)) := by
    rw [wrap, Nat.mod_eq_of_lt (by omega)]
    omega
  have hw₆ : wrap (fs.rawFsMemloc + (dirit.filePos + 4)) = fs.rawFsMemloc + (dirit.filePos + 4) :=
    hm.wrap_eq rfl (by omega)
  refine ⟨⟨⟨fs.rawFsMemloc + (dirit.filePos + 4), f.name.length⟩,
      ⟨dirit.filePos, fs.rawFsMemloc + (dirit.filePos + (4 + f.name.length))⟩⟩,
    { dirit with
      filePos := dirit.filePos + (4 + f.name.length + (4 + f.conts.length))
      filesRemaining := files.length }, ?_, ?_, ?_⟩
  · rw [dirItGetNextFile, if_neg hcount, hw₀]
    simp only [hm.u32At hlen (by omega), hw₁, hw₂, hw₃, hw₄, hw₅, hw₆, hne, if_false,
      hm.u32At hclen (by omega), Option.bind_eq_bind, Option.bind_some, h.filesRemaining,
      List.length_cons, Nat.add_sub_cancel]
    rfl
  · simp only [nameOf, (hm.loaded.at hname).peek, Option.map_some]
  · exact ⟨rfl, h.dirList, h.dirsRemaining, h.dirNames, hl, rfl,
      fun g hg => h.fileNames g (.tail f hg)⟩

/-- Whatever the order of the calls, each list is gone through once. -/
theorem iterate_spec (hm : Mounted mem fs img) (calls : List Call) (h : Before img dirit ps files) :
    iterate mem fs calls dirit = some (listing (ps.map Prod.fst) (calls.count .dir),
      listing (files.map (·.name)) (calls.count .file)) := by
  induction calls generalizing dirit ps files with
  | nil => rfl
  | cons call calls ih =>
      cases call with
      | dir =>
          have hcount : (Call.dir :: calls).count .dir = calls.count .dir + 1 :=
            List.count_cons_self
          have hcount' : (Call.dir :: calls).count .file = calls.count .file :=
            List.count_cons_of_ne (by decide)
          rw [iterate, hcount, hcount']
          cases ps with
          | nil =>
              simp only [nextDir_nil h, ih h, nameOf, Option.map_none, Option.bind_eq_bind,
                Option.bind_some, List.map_nil, listing_nil_succ]
              rfl
          | cons p ps =>
              obtain ⟨dd, dirit', hnext, hname, -, h'⟩ := nextDir_cons hm h
              simp only [hnext, ih h', Option.map_some, hname, Option.bind_eq_bind,
                Option.bind_some, List.map_cons, listing_cons_succ]
              rfl
      | file =>
          have hcount : (Call.file :: calls).count .file = calls.count .file + 1 :=
            List.count_cons_self
          have hcount' : (Call.file :: calls).count .dir = calls.count .dir :=
            List.count_cons_of_ne (by decide)
          rw [iterate, hcount, hcount']
          cases files with
          | nil =>
              simp only [nextFile_nil h, ih h, nameOf, Option.map_none, Option.bind_eq_bind,
                Option.bind_some, List.map_nil, listing_nil_succ]
              rfl
          | cons f files =>
              obtain ⟨fd, dirit', hnext, hname, -, h'⟩ := nextFile_cons hm h
              simp only [hnext, ih h', Option.map_some, hname, Option.bind_eq_bind,
                Option.bind_some, List.map_cons, listing_cons_succ]
              rfl

/-! ### `getDirIt` -/

/-- The iterator of a directory that starts at `b`. -/
def iterOf (b : BuiltDir) : DirIterator := ⟨b.dirstart, b.fstart, b.dirHdrAm, b.fAm⟩

theorem walkDirs_names (h : IsName c) (cur : Nat) (ret : DirIterator) :
    walkDirs mem fs k (c ++ pathOf cs) cur ret =
      (findDir mem c k cur).bind fun
        | none => some none
        | some entry => (do
            let latter ← latterOf mem entry
            let dirPos ← dirstart mem latter
            let filePos ← fstart mem latter
            let dirsRemaining ← dirHdrAm mem latter
            let filesRemaining ← fAm mem latter
            walkDirs mem fs k (pathOf cs).tail (wrap (fs.rawFsMemloc + dirPos))
              ⟨dirPos, filePos, dirsRemaining, filesRemaining⟩) := by
  obtain ⟨x, xs, hx⟩ := List.exists_cons_of_ne_nil h.ne_nil
  have hunfold : c ++ pathOf cs = x :: (xs ++ pathOf cs) := by rw [hx]; rfl
  have hdrop : (xs ++ pathOf cs).drop c.length = (pathOf cs).tail := by
    rw [← drop_names (c := c), hunfold]
    rfl
  rw [hunfold, walkDirs, ← hunfold, strlenSpecChar_names h, List.take_left, hdrop,
    if_neg (length_pos_of_isName h)]
  rfl

/-- The walk finds what can be reached among the first `k` entries of every list. -/
theorem walkDirs_spec (hm : Mounted mem fs img) (hcs : ∀ n ∈ cs, IsName n)
    (hr : Representable d) (hst : Stored img b d) :
    ∃ r, walkDirs mem fs k (pathOf cs).tail (wrap (fs.rawFsMemloc + b.dirstart)) (iterOf b) =
        some r ∧
      ((r = none ∧ ∀ t, ¬ Reach k d cs t) ∨
        ∃ t b', Reach k d cs t ∧ Representable t ∧ Stored img b' t ∧ r = some (iterOf b')) := by
  induction cs generalizing d b with
  | nil =>
      exact ⟨some (iterOf b), by simp [pathOf, walkDirs], .inr ⟨d, b, .here, hr, hst, rfl⟩⟩
  | cons c cs ih =>
      rw [pathOf_cons, List.tail_cons, walkDirs_names (hcs c List.mem_cons_self)]
      obtain ⟨r, h, ⟨rfl, hno⟩ | ⟨s, hs, rfl, b', o, flgs, hst', hat, rfl⟩⟩ :=
        findSubdir_spec hm hr hst c k
      · refine ⟨none, by rw [h]; rfl, .inl ⟨rfl, fun t ht => ?_⟩⟩
        obtain ⟨s, hs, hn, -⟩ := reach_cons_iff.mp ht
        exact hno s hs hn
      · have hrs := hr.sub (List.mem_of_mem_take hs)
        obtain ⟨hd, hf, hds, hfs⟩ :=
          latter_spec hm (at_withName_iff.mp hat).2 (inRange_of_stored hm hrs hst').1
        obtain ⟨r, hwalk, hcases⟩ := ih (fun n hn => hcs n (.tail _ hn)) hrs hst'
        refine ⟨r, ?_, ?_⟩
        · rw [h]
          simp only [Option.bind_some, latterOf_spec hm hat, hd, hf, hds, hfs,
            Option.bind_eq_bind]
          exact hwalk
        · rcases hcases with ⟨rfl, hno⟩ | ⟨t, b'', ht, hrt, hst'', rfl⟩
          · refine .inl ⟨rfl, fun t ht => ?_⟩
            obtain ⟨s', hs', hn, ht'⟩ := reach_cons_iff.mp ht
            obtain rfl := hr.dir_eq (List.mem_of_mem_take hs') (List.mem_of_mem_take hs) hn
            exact hno t ht'
          · exact .inr ⟨t, b'', .sub hs ht, hrt, hst'', rfl⟩

/-- From the iterator of a stored directory the calls list the directory. -/
theorem before_of_stored (hr : Representable t) (hst : Stored img b t) :
    ∃ ps, Before img (iterOf b) ps t.files ∧ StoredAll img ps t.subdirs := by
  obtain ⟨n, files, subdirs⟩ := t
  obtain ⟨hf, hd, -, -, -, -⟩ := hr
  obtain ⟨⟨-, hfl, hfn⟩, -, hdn, ps, hdl, hall⟩ := hst
  have hlen : ps.length = subdirs.length := by
    simpa using congrArg List.length (names_of_storedAll hall)
  refine ⟨ps, ⟨hdl, hdn.trans hlen.symm, fun p hp => ?_, hfl, hfn,
    fun f hf' => (hf f hf').ne_nil⟩, hall⟩
  obtain ⟨s, hs, he, -⟩ := dir_of_entry hall hp
  rw [he]
  exact (hd s hs).ne_nil

variable {root : DirNode} {fp : CStr}

/-- From `dirit` the calls list the directory `t`, in every order and for ever. -/
def Lists (mem : PMem) (fs : RivFs) (dirit : DirIterator) (t : DirNode) : Prop :=
  ∀ calls, iterate mem fs calls dirit = some (listing (t.subdirs.map (·.name)) (calls.count .dir),
    listing (t.files.map (·.name)) (calls.count .file))

/-- `getDirIt` gives the iterator of the directory that it reaches. -/
theorem getDirIt_walk (h : Opened mem fs img root b) (hcs : ∀ n ∈ cs, IsName n)
    (hfp : fp.chars = dirPath cs) :
    ∃ r, getDirIt mem fs fp = some r ∧
      ((r = none ∧ ∀ t, ¬ Reach root.subdirs.length root cs t) ∨
        ∃ t b', Reach root.subdirs.length root cs t ∧ Representable t ∧ Stored img b' t ∧
          r = some (iterOf b')) := by
  obtain ⟨hd, hf, hds, hfs⟩ := h.fph_spec
  have hcount : b.dirHdrAm = root.subdirs.length := by
    have := h.stored
    obtain ⟨n, files, subdirs⟩ := root
    exact this.2.2.1
  obtain ⟨r, hwalk, hcases⟩ := walkDirs_spec (k := root.subdirs.length) h.mounted hcs
    h.representable h.stored
  refine ⟨r, ?_, hcases⟩
  rw [getDirIt, hfp, dirPath, if_neg (by simp [charAt])]
  simp only [hd, hf, hds, hfs, Option.bind_eq_bind, Option.bind_some, List.tail_cons]
  rw [← hcount] at hwalk
  exact hwalk

theorem getDirIt_spec (h : Opened mem fs img root b) (hcs : ∀ n ∈ cs, IsName n)
    (hfp : fp.chars = dirPath cs) :
    ∃ r, getDirIt mem fs fp = some r ∧
      ((r = none ∧ ∀ t, ¬ Reach root.subdirs.length root cs t) ∨
        ∃ dirit t, Reach root.subdirs.length root cs t ∧ r = some dirit ∧ Lists mem fs dirit t) := by
  obtain ⟨r, hget, hcases⟩ := getDirIt_walk h hcs hfp
  refine ⟨r, hget, hcases.imp_right ?_⟩
  rintro ⟨t, b', ht, hr, hst, rfl⟩
  obtain ⟨ps, hbefore, hall⟩ := before_of_stored hr hst
  refine ⟨iterOf b', t, ht, rfl, fun calls => ?_⟩
  rw [← names_of_storedAll hall]
  exact iterate_spec h.mounted calls hbefore

/-- What `getDirIt` should do: succeed exactly on the directories of the tree, with an iterator
that lists them. -/
def DirItExact (mem : PMem) (fs : RivFs) (root : DirNode) (cs : List Name) (fp : CStr) : Prop :=
  ∃ r, getDirIt mem fs fp = some r ∧ (r.isSome = true ↔ ∃ t, HasDir root cs t) ∧
    ∀ dirit t, r = some dirit → HasDir root cs t → Lists mem fs dirit t

/-- `getDirIt` is right about a path exactly when every directory on the way to the one it names
is, among its siblings, at an index below the number of subdirectories of the root. -/
theorem getDirIt_exact_iff (junk : Nat → Nat) (hr : Representable root)
    (hm : Mounted mem fs (main junk root)) (hlen : (main junk root).length < 2 ^ 32) :
    ∃ fs', checkCorrectness mem fs = some (true, fs') ∧
      ∀ (fp : CStr) (cs : List Name), (∀ n ∈ cs, IsName n) → fp.chars = dirPath cs →
        (DirItExact mem fs' root cs fp ↔
          ∀ t, HasDir root cs t → Reach root.subdirs.length root cs t) := by
  obtain ⟨fs', b, hcheck, hopened⟩ := exists_opened junk hr hm hlen
  refine ⟨fs', hcheck, fun fp cs hcs hfp => ?_⟩
  obtain ⟨r, hget, hcases⟩ := getDirIt_spec hopened hcs hfp
  constructor
  · rintro ⟨r', hget', hsome, -⟩ t ht
    obtain rfl : r = r' := Option.some.inj (hget.symm.trans hget')
    rcases hcases with ⟨rfl, -⟩ | ⟨dirit, t', ht', -, -⟩
    · exact absurd (hsome.mpr ⟨t, ht⟩) (by decide)
    · rwa [hr.hasDir_unique ht ht'.hasDir]
  · intro hreach
    refine ⟨r, hget, ?_⟩
    rcases hcases with ⟨rfl, hno⟩ | ⟨dirit, t, ht, rfl, hlists⟩
    · exact ⟨by simpa using fun t ht => hno t (hreach t ht), nofun⟩
    · refine ⟨iff_of_true rfl ⟨t, ht.hasDir⟩, ?_⟩
      rintro _ t' ⟨⟩ ht'
      rwa [hr.hasDir_unique ht' ht.hasDir]

theorem getDirIt_exact_small : ∃ fs',
    checkCorrectness (imageMem (main (fun _ => 0) smallTree)) ⟨0x100000, 101, 0⟩ = some (true, fs') ∧
      DirItExact (imageMem (main (fun _ => 0) smallTree)) fs' smallTree [[100]]
        (.lit ['/', 'd']) := by
  obtain ⟨fs', hcheck, hexact⟩ := getDirIt_exact_iff (fun _ => 0) smallTree_representable
    smallTree_mounted (by rw [length_smallTree]; decide)
  refine ⟨fs', hcheck, (hexact _ [[100]] ?_ rfl).mpr fun t ht => ?_⟩
  · rintro n (_ | ⟨_, ⟨⟩⟩)
    exact isName_single (by decide) (by decide)
  · obtain ⟨s, hs, hn, hs'⟩ := hasDir_cons_iff.mp ht
    cases hs'
    exact reach_cons_iff.mpr ⟨_, hs, hn, .here⟩

/-- One directory, `a`, with the directories `b` and `c`. -/
def forkTree : DirNode := .mk [] [] [.mk [97] [] [.mk [98] [] [], .mk [99] [] []]]

theorem forkTree_representable : Representable forkTree := by
  have hleaf : ∀ n, Representable (.mk n [] []) := fun n =>
    .mk nofun nofun (by simp) (by decide) (by decide) nofun
  refine .mk nofun ?_ (by decide) (by decide) (by decide) ?_
  · rintro d (_ | ⟨_, ⟨⟩⟩)
    exact isName_single (by decide) (by decide)
  · rintro d (_ | ⟨_, ⟨⟩⟩)
    refine .mk nofun ?_ (by decide) (by decide) (by decide) ?_
    · rintro d (_ | ⟨_, _ | ⟨_, ⟨⟩⟩⟩)
      · exact isName_single (by decide) (by decide)
      · exact isName_single (by decide) (by decide)
    · rintro d (_ | ⟨_, _ | ⟨_, ⟨⟩⟩⟩)
      · exact hleaf _
      · exact hleaf _

theorem length_forkTree : (main (fun _ => 0) forkTree).length = 146 := by decide +kernel

/-- `/a/c` is the second directory of `a`, but the root has only one. -/
theorem getDirIt_misses_second : ∃ fs',
    checkCorrectness (imageMem (main (fun _ => 0) forkTree)) ⟨0x100000, 146, 0⟩ = some (true, fs') ∧
      HasDir forkTree [[97], [99]] (.mk [99] [] []) ∧
        ¬ DirItExact (imageMem (main (fun _ => 0) forkTree)) fs' forkTree [[97], [99]]
          (.lit ['/', 'a', '/', 'c']) := by
  have hm := imageMem_mounted (main (fun _ => 0) forkTree) (by rw [length_forkTree]; decide)
  rw [length_forkTree] at hm
  obtain ⟨fs', b, hcheck, hopened⟩ := exists_opened (fun _ => 0) forkTree_representable hm
    (by rw [length_forkTree]; decide)
  have hdir : HasDir forkTree [[97], [99]] (.mk [99] [] []) :=
    .sub (s := .mk [97] [] [.mk [98] [] [], .mk [99] [] []]) List.mem_cons_self
      (.sub (s := .mk [99] [] []) (.tail _ List.mem_cons_self) .here)
  have hnames : ∀ n ∈ [[97], [99]], IsName n := by
    rintro n (_ | ⟨_, _ | ⟨_, ⟨⟩⟩⟩)
    · exact isName_single (by decide) (by decide)
    · exact isName_single (by decide) (by decide)
  have hpath : (CStr.lit ['/', 'a', '/', 'c']).chars = dirPath [[97], [99]] := rfl
  refine ⟨fs', hcheck, hdir, ?_⟩
  rintro ⟨r, hget, hsome, -⟩
  obtain ⟨r', hget', ⟨rfl, -⟩ | ⟨dirit, t, ht, -, -⟩⟩ :=
    getDirIt_spec hopened hnames hpath
  · obtain rfl : r = none := Option.some.inj (hget.symm.trans hget')
    exact absurd (hsome.mpr ⟨_, hdir⟩) (by decide)
  · obtain ⟨s, hs, -, ht⟩ := reach_cons_iff.mp ht
    obtain rfl := List.mem_singleton.mp hs
    obtain ⟨s, hs, hn, -⟩ := reach_cons_iff.mp ht
    obtain rfl := List.mem_singleton.mp hs
    exact absurd hn (by decide)

end RivFs
end RivOS
