import RivOS.InitRamFs.Iterate

/-!
# InitRamFs — Handles of files

A `File` comes from `open`, from `dirItGetNextFile` on an iterator, or from `openFileInDirData` on what
`dirItGetNextDir` gave (`Way`).  `filesize` goes by its second field and `read` by its first as well.

* `gives_open`, `gives_inDir`: two of the ways give the file.
* `gives_next_iff`: an iterator's handle has an offset where `read` takes an address, so that what is
  read is what lies there.
* `handles_agree_iff`: hence all ways of obtaining a handle of a file give that file exactly if what
  lies there reads the same.
-/

namespace RivOS

variable {c : Name} {cs : List Name} {d t : DirNode} {f : FileNode}

theorem HasDir.hasFile (h : HasDir d cs t) (hf : f ∈ t.files) :
    HasFile d (cs ++ [f.name]) f.conts := by
  induction h with
  | here => exact .here hf
  | sub hs _ ih => exact .sub hs (ih hf)

theorem HasDir.concat {s : DirNode} (h : HasDir d cs t) (hs : s ∈ t.subdirs) :
    HasDir d (cs ++ [s.name]) s := by
  induction h with
  | here => exact .sub hs .here
  | sub h _ ih => exact .sub h (ih hs)

theorem Representable.fileName (h : Representable d) (hf : f ∈ d.files) : IsName f.name := by
  obtain ⟨hn, -⟩ := h
  exact hn f hf

theorem Representable.dirName (h : Representable d) (ht : t ∈ d.subdirs) : IsName t.name := by
  obtain ⟨-, hn, -⟩ := h
  exact hn t ht

/-- Below a directory that can be stored everything can, and has names. -/
theorem Representable.of_hasDir (h : Representable d) (ht : HasDir d cs t) :
    Representable t ∧ ∀ n ∈ cs, IsName n := by
  induction ht with
  | here => exact ⟨h, nofun⟩
  | sub hs _ ih =>
      obtain ⟨ht, hn⟩ := ih (h.sub hs)
      exact ⟨ht, List.forall_mem_cons.mpr ⟨h.dirName hs, hn⟩⟩

namespace RivFs

open Genfs

variable {mem : PMem} {fs : RivFs} {img : List UInt8} {b : BuiltDir} {root : DirNode} {fp : CStr}
  {dirit dirit' : DirIterator} {ps : List (Name × BuiltDir)} {files : List FileNode}
  {calls : List Call}

/-! ### Iterators on their way -/

/-- The iterator after some calls. -/
def advance (mem : PMem) (fs : RivFs) : List Call → DirIterator → Option DirIterator
  | [], dirit => some dirit
  | .dir :: calls, dirit => do
      let (_, dirit) ← dirItGetNextDir mem fs dirit
      advance mem fs calls dirit
  | .file :: calls, dirit => do
      let (_, dirit) ← dirItGetNextFile mem fs dirit
      advance mem fs calls dirit

/-- Calls leave what they have not gone through. -/
theorem advance_spec (hm : Mounted mem fs img) (calls : List Call)
    (h : Before img dirit ps files) :
    ∃ dirit', advance mem fs calls dirit = some dirit' ∧
      Before img dirit' (ps.drop (calls.count .dir)) (files.drop (calls.count .file)) := by
  induction calls generalizing dirit ps files with
  | nil => exact ⟨dirit, rfl, h⟩
  | cons call calls ih =>
      cases call with
      | dir =>
          have hcount : (Call.dir :: calls).count .dir = calls.count .dir + 1 :=
            List.count_cons_self
          have hcount' : (Call.dir :: calls).count .file = calls.count .file :=
            List.count_cons_of_ne (by decide)
          rw [advance, hcount, hcount']
          cases ps with
          | nil =>
              obtain ⟨dirit', hadv, h'⟩ := ih h
              rw [List.drop_nil] at h'
              exact ⟨dirit', by rw [nextDir_nil h]; exact hadv, by rwa [List.drop_nil]⟩
          | cons p ps =>
              obtain ⟨dd, dirit₁, hnext, -, -, h₁⟩ := nextDir_cons hm h
              obtain ⟨dirit', hadv, h'⟩ := ih h₁
              exact ⟨dirit', by rw [hnext]; exact hadv, h'⟩
      | file =>
          have hcount : (Call.file :: calls).count .file = calls.count .file + 1 :=
            List.count_cons_self
          have hcount' : (Call.file :: calls).count .dir = calls.count .dir :=
            List.count_cons_of_ne (by decide)
          rw [advance, hcount, hcount']
          cases files with
          | nil =>
              obtain ⟨dirit', hadv, h'⟩ := ih h
              rw [List.drop_nil] at h'
              exact ⟨dirit', by rw [nextFile_nil h]; exact hadv, by rwa [List.drop_nil]⟩
          | cons f files =>
              obtain ⟨fd, dirit₁, hnext, -, -, h₁⟩ := nextFile_cons hm h
              obtain ⟨dirit', hadv, h'⟩ := ih h₁
              exact ⟨dirit', by rw [hnext]; exact hadv, h'⟩

/-- An iterator that `getDirIt` gave stands, after some calls, in the lists of the directory. -/
theorem before_of_getDirIt (h : Opened mem fs img root b) (ht : HasDir root cs t)
    (hfp : fp.chars = dirPath cs) (hget : getDirIt mem fs fp = some (some dirit))
    (hadv : advance mem fs calls dirit = some dirit') :
    ∃ ps, StoredAll img ps t.subdirs ∧
      Before img dirit' (ps.drop (calls.count .dir)) (t.files.drop (calls.count .file)) := by
  obtain ⟨r, hget', ⟨rfl, -⟩ | ⟨t', b', ht', hr, hst, rfl⟩⟩ :=
    getDirIt_walk h (h.representable.of_hasDir ht).2 hfp
  · cases hget.symm.trans hget'
  · cases hget.symm.trans hget'
    obtain rfl := h.representable.hasDir_unique ht ht'.hasDir
    obtain ⟨ps, hbefore, hall⟩ := before_of_stored hr hst
    obtain ⟨dirit'', hadv', hbefore'⟩ := advance_spec h.mounted calls hbefore
    cases hadv.symm.trans hadv'
    exact ⟨ps, hall, hbefore'⟩

/-! ### Ways to a file -/

/-- A call that gives a handle. -/
inductive Way where
  | «open» (fp : CStr)
  | next (dirit : DirIterator)
  | inDir (dd : DirData) (fn : List UInt8)

/-- The handle that the call gives. -/
def Way.file (mem : PMem) (fs : RivFs) : Way → Option (Option File)
  | .open fp => RivFs.open mem fs fp
  | .next dirit => (dirItGetNextFile mem fs dirit).map fun r => r.1.map (·.file)
  | .inDir dd fn => openFileInDirData mem fs dd fn

/-- The call gives a handle of the file: its length and its bytes. -/
def Way.Gives (mem : PMem) (fs : RivFs) (f : FileNode) (w : Way) : Prop :=
  ∃ h, w.file mem fs = some (some h) ∧
    filesize mem h = some f.conts.length ∧ read mem h = some (f.conts ++ [0])

/-- The ways to the file `f` of the directory at `cs`: its path, an iterator of the directory when it
comes to the file, and the directory's entry that an iterator of the directory above gave. -/
inductive WayTo (mem : PMem) (fs : RivFs) (root : DirNode) : List Name → FileNode → Way → Prop where
  | «open» {cs : List Name} {f : FileNode} {fp : CStr} (hfp : fp.chars = pathOf (cs ++ [f.name])) :
      WayTo mem fs root cs f (.open fp)
  | next {cs : List Name} {t : DirNode} {f : FileNode} {fp : CStr} {calls : List Call}
      {dirit₀ dirit : DirIterator} (ht : HasDir root cs t)
      (hf : t.files[calls.count .file]? = some f) (hfp : fp.chars = dirPath cs)
      (hget : getDirIt mem fs fp = some (some dirit₀))
      (hadv : advance mem fs calls dirit₀ = some dirit) : WayTo mem fs root cs f (.next dirit)
  | inDir {cs : List Name} {p t : DirNode} {f : FileNode} {fp : CStr} {calls : List Call}
      {dirit₀ dirit dirit' : DirIterator} {dd : DirData} (hp : HasDir root cs p)
      (ht : p.subdirs[calls.count .dir]? = some t) (hfp : fp.chars = dirPath cs)
      (hget : getDirIt mem fs fp = some (some dirit₀))
      (hadv : advance mem fs calls dirit₀ = some dirit)
      (hdd : dirItGetNextDir mem fs dirit = some (some dd, dirit')) :
      WayTo mem fs root (cs ++ [t.name]) f (.inDir dd f.name)

/-- What `read` finds when it takes the offset `off` of a file's entry for an address: there, as in
the entry, a number, and that many bytes and eight behind it the file's own bytes. -/
def Shadowed (mem : PMem) (off : Nat) (f : FileNode) : Prop :=
  ∃ len, u32At mem off = some len ∧
    peek mem (wrap (wrap (off + len) + 8)) f.conts.length = some f.conts

/-! ### What each way gives -/

/-- A handle whose first field is the address of the file's entry. -/
theorem gives_of_fileAt (hm : Mounted mem fs img) {off : Nat} {w : Way} {f' : FileNode}
    (ha : At img off (FileEntry.genf f'.conts f'.name)) (hconts : f'.conts = f.conts)
    (hw : w.file mem fs = some (some (fileAt fs off f'))) : w.Gives mem fs f := by
  obtain ⟨hsize, hread⟩ := read_spec hm ha
  exact ⟨_, hw, hconts ▸ hsize, hconts ▸ hread⟩

theorem gives_open (h : Opened mem fs img root b) (ht : HasDir root cs t) (hf : f ∈ t.files)
    (hfp : fp.chars = pathOf (cs ++ [f.name])) : (Way.open fp).Gives mem fs f := by
  obtain ⟨hr, hcs⟩ := h.representable.of_hasDir ht
  have hnames : ∀ n ∈ cs ++ [f.name], IsName n := by
    intro n hn
    rcases List.mem_append.mp hn with hn | hn
    · exact hcs n hn
    · exact List.mem_singleton.mp hn ▸ hr.fileName hf
  have hfile := ht.hasFile hf
  obtain ⟨c, cs', he⟩ := List.exists_cons_of_ne_nil (List.append_ne_nil_of_right_ne_nil cs
    (List.cons_ne_nil f.name []))
  rw [he] at hnames hfp hfile
  obtain ⟨r, hopen, ⟨rfl, hno⟩ | ⟨f', o, hf', hat, rfl⟩⟩ := open_spec h hnames hfp
  · exact absurd hfile (hno f.conts)
  · exact gives_of_fileAt h.mounted hat (h.representable.hasFile_unique hf' hfile) hopen

theorem read_iff_shadowed {h : File} (hsize : filesize mem h = some f.conts.length) :
    read mem h = some (f.conts ++ [0]) ↔ Shadowed mem h.startPos f := by
  constructor
  · intro hread
    obtain ⟨len, hlen, hread⟩ := Option.bind_eq_some_iff.mp hread
    obtain ⟨size, hsize', hread⟩ := Option.bind_eq_some_iff.mp hread
    obtain ⟨conts, hpeek, hconts⟩ := Option.bind_eq_some_iff.mp hread
    cases hsize.symm.trans hsize'
    obtain rfl : conts = f.conts := List.append_cancel_right (Option.some.inj hconts)
    exact ⟨len, hlen, hpeek⟩
  · rintro ⟨len, hlen, hpeek⟩
    rw [read, hsize]
    simp only [hlen, hpeek, Option.bind_eq_bind, Option.bind_some]
    rfl

/-- The handle of an iterator has the offset of the entry, and `read` takes it for an address. -/
theorem gives_next_iff (hm : Mounted mem fs img) (h : Before img dirit ps (f :: files)) :
    (Way.next dirit).Gives mem fs f ↔ Shadowed mem dirit.filePos f := by
  obtain ⟨fd, dirit', hnext, -, hfile, -⟩ := nextFile_cons hm h
  have hway : (Way.next dirit).file mem fs = some (some fd.file) := by
    rw [Way.file, hnext]
    rfl
  have hsize : filesize mem fd.file = some f.conts.length := by
    rw [hfile]
    exact (read_spec hm h.fileList.1).1
  have hread := read_iff_shadowed hsize
  rw [show fd.file.startPos = dirit.filePos by rw [hfile]] at hread
  constructor
  · rintro ⟨h', hw, -, hconts⟩
    obtain rfl : fd.file = h' := Option.some.inj (Option.some.inj (hway.symm.trans hw))
    exact hread.mp hconts
  · intro hshadow
    exact ⟨fd.file, hway, hsize, hread.mpr hshadow⟩

theorem drop_of_getElem? {α : Type} {l : List α} {i : Nat} {a : α} (h : l[i]? = some a) :
    l.drop i = a :: l.drop (i + 1) := by
  obtain ⟨hi, rfl⟩ := List.getElem?_eq_some_iff.mp h
  exact List.drop_eq_getElem_cons hi

/-- The entries of stored subdirectories are in their order. -/
theorem storedAll_getElem : ∀ {ps : List (Name × BuiltDir)} {ds : List DirNode} {i : Nat},
    StoredAll img ps ds → ds[i]? = some t →
      ∃ p, ps[i]? = some p ∧ p.1 = t.name ∧ Stored img p.2 t
  | [], [], _, _, ht => by cases ht
  | p :: _, _ :: _, 0, ⟨hn, h, _⟩, ht => by
      cases ht
      exact ⟨p, rfl, hn, h⟩
  | _ :: _, _ :: ds, i + 1, ⟨_, _, hs⟩, ht => by
      have ht : ds[i]? = some t := ht
      obtain ⟨p, hp, h⟩ := storedAll_getElem hs ht
      exact ⟨p, hp, h⟩

theorem gives_inDir {p : DirNode} {dirit₀ : DirIterator} {dd : DirData}
    (h : Opened mem fs img root b) (hp : HasDir root cs p)
    (ht : p.subdirs[calls.count .dir]? = some t) (hf : f ∈ t.files) (hfp : fp.chars = dirPath cs)
    (hget : getDirIt mem fs fp = some (some dirit₀))
    (hadv : advance mem fs calls dirit₀ = some dirit)
    (hdd : dirItGetNextDir mem fs dirit = some (some dd, dirit')) :
    (Way.inDir dd f.name).Gives mem fs f := by
  have hm := h.mounted
  have hr := (h.representable.of_hasDir hp).1.sub (List.mem_of_getElem? ht)
  obtain ⟨ps, hall, hbefore⟩ := before_of_getDirIt h hp hfp hget hadv
  obtain ⟨q, hq, -, hst⟩ := storedAll_getElem hall ht
  rw [drop_of_getElem? hq] at hbefore
  obtain ⟨dd', dirit'', hnext, -, hpos, -⟩ := nextDir_cons hm hbefore
  cases hdd.symm.trans hnext
  -- what the entry says of the directory
  obtain ⟨flgs, hat, -⟩ := hbefore.dirList
  have hle := le_of_withName hat
  have hbase := hm.fits
  have hw : wrap (fs.rawFsMemloc + dd.dir.constPos) =
      fs.rawFsMemloc + (dirit.dirPos + (4 + q.1.length)) :=
    hm.wrap_eq (by rw [hpos]) (by omega)
  obtain ⟨-, hfAm, -, hfs⟩ :=
    latter_spec hm (at_withName_iff.mp hat).2 (inRange_of_stored hm hr hst).1
  obtain ⟨r, hfind, ⟨-, hno⟩ | ⟨f', hf', o, hn, hat', rfl⟩⟩ := findOwnFile_spec hm hr hst f.name
  · exact absurd rfl (hno f hf)
  · refine gives_of_fileAt hm hat' (congrArg FileNode.conts (hr.file_eq hf' hf hn)) ?_
    rw [Way.file, openFileInDirData, hw]
    simp only [hfAm, hfs, hfind, Option.bind_eq_bind, Option.bind_some]

theorem before_of_wayTo (h : Opened mem fs img root b)
    (hway : WayTo mem fs root cs f (.next dirit)) :
    ∃ ps files, Before img dirit ps (f :: files) := by
  cases hway with
  | next ht hf hfp hget hadv =>
      obtain ⟨ps, -, hbefore⟩ := before_of_getDirIt h ht hfp hget hadv
      rw [drop_of_getElem? hf] at hbefore
      exact ⟨_, _, hbefore⟩

/-- An iterator comes to each file of a directory that `getDirIt` reaches. -/
theorem exists_wayTo_next (h : Opened mem fs img root b)
    (ht : Reach root.subdirs.length root cs t) (hf : f ∈ t.files) (hfp : fp.chars = dirPath cs) :
    ∃ dirit, WayTo mem fs root cs f (.next dirit) := by
  obtain ⟨i, hi⟩ := List.getElem?_of_mem hf
  obtain ⟨r, hget, ⟨rfl, hno⟩ | ⟨t', b', ht', hr, hst, rfl⟩⟩ :=
    getDirIt_walk h (h.representable.of_hasDir ht.hasDir).2 hfp
  · exact absurd ht (hno t)
  · obtain ⟨ps, hbefore, -⟩ := before_of_stored hr hst
    obtain ⟨dirit, hadv, -⟩ :=
      advance_spec h.mounted (List.replicate i .file) hbefore
    exact ⟨dirit, .next ht.hasDir (by rwa [List.count_replicate_self]) hfp hget hadv⟩

/-- All ways to a file give it exactly if, wherever an iterator stands in front of it, `read` finds
the same when it takes the offset for an address. -/
theorem handles_agree_iff (junk : Nat → Nat) (hr : Representable root)
    (hm : Mounted mem fs (main junk root)) (hlen : (main junk root).length < 2 ^ 32) :
    ∃ fs', checkCorrectness mem fs = some (true, fs') ∧
      ∀ (cs : List Name) (t : DirNode) (f : FileNode), HasDir root cs t → f ∈ t.files →
        ((∀ w, WayTo mem fs' root cs f w → w.Gives mem fs' f) ↔
          ∀ dirit, WayTo mem fs' root cs f (.next dirit) → Shadowed mem dirit.filePos f) := by
  obtain ⟨fs', b, hcheck, hopened⟩ := exists_opened junk hr hm hlen
  refine ⟨fs', hcheck, fun cs t f ht hf => ?_⟩
  have hnext : ∀ dirit, WayTo mem fs' root cs f (.next dirit) →
      ((Way.next dirit).Gives mem fs' f ↔ Shadowed mem dirit.filePos f) := by
    intro dirit hway
    obtain ⟨ps, files, hbefore⟩ := before_of_wayTo hopened hway
    exact gives_next_iff hopened.mounted hbefore
  constructor
  · intro hall dirit hway
    exact (hnext dirit hway).mp (hall _ hway)
  · intro hshadow w hway
    cases w with
    | «open» fp =>
        cases hway with
        | «open» hfp => exact gives_open hopened ht hf hfp
    | next dirit => exact (hnext dirit hway).mpr (hshadow dirit hway)
    | inDir dd fn =>
        generalize he : cs = cs' at hway
        cases hway with
        | inDir hp hs hfp hget hadv hdd =>
            obtain rfl := hr.hasDir_unique (he ▸ ht) (hp.concat (List.mem_of_getElem? hs))
            exact gives_inDir hopened hp hs hf hfp hget hadv hdd

/-- Where the image lies at 0 as well, what `read` takes for an address is one. -/
theorem shadowed_of_mounted {off n fph : Nat} (hm : Mounted mem ⟨0, n, fph⟩ img)
    (ha : At img off (FileEntry.genf f.conts f.name)) : Shadowed mem off f := by
  obtain ⟨hsize, hread⟩ := read_spec hm ha
  have hshadow := (read_iff_shadowed hsize).mp hread
  rwa [fileAt, Nat.zero_add] at hshadow

/-- Memory in which an image comes again every 1 MiB. -/
def mirrorMem (img : List UInt8) : PMem := fun a => img[a % 0x100000]?

theorem mirrorMem_mounted (img : List UInt8) (h : img.length ≤ 0x100000) (k : Nat) (hk : k < 2) :
    Mounted (mirrorMem img) ⟨k * 0x100000, img.length, 0⟩ img := by
  refine ⟨fun i x hx => ?_, rfl, by simp only; omega⟩
  have hi := (List.getElem?_eq_some_iff.mp hx).1
  have hmod : (k * 0x100000 + i) % 0x100000 = i := by omega
  rwa [mirrorMem, hmod]

theorem smallTree_hasDir : HasDir smallTree [[100]] (.mk [100] [⟨[98], [3]⟩] []) :=
  .sub (s := .mk [100] [⟨[98], [3]⟩] []) List.mem_cons_self .here

theorem handles_agree_small : ∃ fs',
    checkCorrectness (mirrorMem (main (fun _ => 0) smallTree)) ⟨0x100000, 101, 0⟩ =
        some (true, fs') ∧
      ∀ w, WayTo (mirrorMem (main (fun _ => 0) smallTree)) fs' smallTree [[100]] ⟨[98], [3]⟩ w →
        w.Gives (mirrorMem (main (fun _ => 0) smallTree)) fs' ⟨[98], [3]⟩ := by
  have hlength : (main (fun _ => 0) smallTree).length = 101 := length_smallTree
  have hm := mirrorMem_mounted (main (fun _ => 0) smallTree) (by rw [hlength]; decide)
  rw [hlength] at hm
  obtain ⟨fs', hcheck, hagree⟩ := handles_agree_iff (fun _ => 0) smallTree_representable
    (hm 1 (by decide)) (by rw [hlength]; decide)
  obtain ⟨fs'', b, hcheck', hopened⟩ := exists_opened (fun _ => 0) smallTree_representable
    (hm 1 (by decide)) (by rw [hlength]; decide)
  cases hcheck.symm.trans hcheck'
  refine ⟨_, hcheck, (hagree _ _ _ smallTree_hasDir List.mem_cons_self).mpr fun dirit hway => ?_⟩
  obtain ⟨ps, files, hbefore⟩ := before_of_wayTo hopened hway
  exact shadowed_of_mounted (hm 0 (by decide)) hbefore.fileList.1

/-- Memory with an image at 1 MiB and zeros everywhere else. -/
def paddedMem (img : List UInt8) : PMem :=
  fun a => some (if a < 0x100000 then 0 else img.getD (a - 0x100000) 0)

theorem paddedMem_mounted (img : List UInt8) (h : img.length ≤ 2 ^ 31) :
    Mounted (paddedMem img) ⟨0x100000, img.length, 0⟩ img := by
  refine ⟨fun i x hx => ?_, rfl, by simp only; omega⟩
  have hge : ¬ 0x100000 + i < 0x100000 := by omega
  rw [paddedMem, if_neg hge, Nat.add_sub_cancel_left, List.getD_eq_getElem?_getD, hx]
  rfl

theorem paddedMem_low (img : List UInt8) {a : Nat} (h : a < 0x100000) : paddedMem img a = some 0 :=
  congrArg some (if_pos h)

/-- An iterator of `d` gives a handle of `d/b` that does not read `b`. -/
theorem handles_differ : ∃ fs' dirit,
    checkCorrectness (paddedMem (main (fun _ => 0) smallTree)) ⟨0x100000, 101, 0⟩ =
        some (true, fs') ∧
      WayTo (paddedMem (main (fun _ => 0) smallTree)) fs' smallTree [[100]] ⟨[98], [3]⟩
          (.next dirit) ∧
        ¬ (Way.next dirit).Gives (paddedMem (main (fun _ => 0) smallTree)) fs' ⟨[98], [3]⟩ := by
  have hlength : (main (fun _ => 0) smallTree).length = 101 := length_smallTree
  have hm := paddedMem_mounted (main (fun _ => 0) smallTree) (by rw [hlength]; decide)
  rw [hlength] at hm
  obtain ⟨fs', b, hcheck, hopened⟩ := exists_opened (fun _ => 0) smallTree_representable hm
    (by rw [hlength]; decide)
  have hreach : Reach smallTree.subdirs.length smallTree [[100]] (.mk [100] [⟨[98], [3]⟩] []) :=
    .sub (s := .mk [100] [⟨[98], [3]⟩] []) List.mem_cons_self .here
  have hpath : (CStr.lit ['/', 'd']).chars = dirPath [[100]] := rfl
  obtain ⟨dirit, hway⟩ := exists_wayTo_next hopened hreach List.mem_cons_self hpath
  refine ⟨fs', dirit, hcheck, hway, fun hgives => ?_⟩
  obtain ⟨ps, files, hbefore⟩ := before_of_wayTo hopened hway
  obtain ⟨len, hlen, hpeek⟩ := (gives_next_iff hopened.mounted hbefore).mp hgives
  have hoff := le_of_fileList hbefore.fileList.2
  rw [hlength, length_genf] at hoff
  have hzero : u32At (paddedMem (main (fun _ => 0) smallTree)) dirit.filePos = some 0 := by
    simp (disch := omega) only [u32At, peekLE, peek, paddedMem_low, Option.bind_eq_bind,
      Option.bind_some]
    rfl
  obtain rfl : len = 0 := Option.some.inj (hlen.symm.trans hzero)
  have hwrap : wrap (wrap (dirit.filePos + 0) + 8) = dirit.filePos + 8 := by
    rw [wrap, wrap]
    omega
  rw [hwrap] at hpeek
  simp (disch := omega) only [peek, List.length_cons, List.length_nil, paddedMem_low,
    Option.bind_eq_bind, Option.bind_some] at hpeek
  cases hpeek

end RivFs
end RivOS
