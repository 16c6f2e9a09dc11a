import RivOS.InitRamFs.Paths

/-!
# InitRamFs — The reader finds what the writer stored

An image in memory, at an address from which it ends below 4 GiB (`Mounted`).  On a list of files
the reader's loop finds the file of a name (`findFile_spec`), on a list of directories the entry
(`findDir_spec`), and down a path it follows the tree (`findInDir_spec`).

* `open_roundtrip`: every image of `genfs` passes `checkCorrectness`, and `open` then succeeds
  exactly on the files of the tree, with their sizes and contents.
-/

namespace RivOS.RivFs

open Genfs

/-- The image `img` is what `fs` reads. -/
structure Mounted (mem : PMem) (fs : RivFs) (img : List UInt8) : Prop where
  loaded : Loaded mem fs.rawFsMemloc img
  size : fs.rawFsSize = img.length
  fits : fs.rawFsMemloc + img.length ≤ 2 ^ 32

variable {mem : PMem} {fs : RivFs} {img : List UInt8} {off v : Nat} {needed : Name}

/-! ### Loads -/

namespace Mounted

/-- Sums that stay in the image do not wrap around. -/
theorem wrap_eq (hm : Mounted mem fs img) {n : Nat} (hn : n = fs.rawFsMemloc + off)
    (h : off < img.length) : wrap n = fs.rawFsMemloc + off := by
  have := hm.fits
  rw [hn]
  exact Nat.mod_eq_of_lt (by omega)

theorem u32At (hm : Mounted mem fs img) (ha : At img off (toLE 4 v)) (hv : v < 2 ^ 32) :
    RivFs.u32At mem (fs.rawFsMemloc + off) = some v :=
  hm.loaded.peekLE ha hv

theorem u16At (hm : Mounted mem fs img) (ha : At img off (toLE 2 v)) (hv : v < 2 ^ 16) :
    RivFs.u16At mem (fs.rawFsMemloc + off) = some v :=
  hm.loaded.peekLE ha hv

theorem nameIs (hm : Mounted mem fs img) {n : Name} (ha : At img off n) :
    RivFs.nameIs mem (fs.rawFsMemloc + off) n.length needed = some (decide (n = needed)) := by
  by_cases hlen : n.length = needed.length
  · rw [RivFs.nameIs, if_pos hlen, (hm.loaded.at ha).peekEq hlen]
  · have hne : n ≠ needed := fun e => hlen (by rw [e])
    rw [RivFs.nameIs, if_neg hlen, decide_eq_false hne]

end Mounted

/-! ### Lists of files -/

/-- The `File` that the reader makes for the entry of `f` at `off`. -/
def fileAt (fs : RivFs) (off : Nat) (f : FileNode) : File :=
  ⟨fs.rawFsMemloc + off, fs.rawFsMemloc + (off + (4 + f.name.length))⟩

/-- The loop finds the file of the name among the first `n`, at its place, or there is none. -/
theorem findFile_take (hm : Mounted mem fs img) {files : List FileNode}
    (hl : FileList img off files) (hn : ∀ f ∈ files, f.name ≠ []) (n : Nat) :
    ∃ r, findFile mem needed n (fs.rawFsMemloc + off) = some r ∧
      ((r = none ∧ ∀ f ∈ files.take n, f.name ≠ needed) ∨
        ∃ pre f post, files.take n = pre ++ f :: post ∧ f.name = needed ∧
          At img (filesEnd off pre) (FileEntry.genf f.conts f.name) ∧
            r = some (fileAt fs (filesEnd off pre) f)) := by
  -- by the remaining count, which may run out before the list does
  induction n generalizing off files with
  | zero => exact ⟨none, rfl, .inl ⟨rfl, by simp⟩⟩
  | succ n ih =>
      cases files with
      | nil =>
          refine ⟨none, ?_, .inl ⟨rfl, by simp⟩⟩
          simp [findFile, hm.u32At hl (by omega)]
      | cons f files =>
          obtain ⟨hf, hl⟩ := hl
          have hend := le_of_fileList hl
          have hbase := hm.fits
          have hlgenf := length_genf f.conts f.name
          rw [hlgenf] at hend
          obtain ⟨⟨hlen, hname⟩, hclen, hconts⟩ := at_genf_iff.mp hf
          have hne : f.name.length ≠ 0 := fun e =>
            hn f List.mem_cons_self (List.eq_nil_of_length_eq_zero e)
          -- the image fits below 2^32, so no step over the entry wraps around
          have hw₁ : wrap (fs.rawFsMemloc + off + 4) = fs.rawFsMemloc + (off + 4) :=
            hm.wrap_eq (by omega) (by omega)
          have hw₂ : wrap (fs.rawFsMemloc + (off + 4) + f.name.length) =
              fs.rawFsMemloc + (off + (4 + f.name.length)) := hm.wrap_eq (by omega) (by omega)
          simp only [findFile, hm.u32At hlen (by omega), hw₁, hm.nameIs hname, hw₂,
            Option.bind_eq_bind, Option.bind_some, if_neg hne]
          by_cases hfn : f.name = needed
          · exact ⟨some (fileAt fs off f), by simp [hfn, fileAt], .inr ⟨[], f, files.take n,
              List.take_succ_cons, hfn, hf, rfl⟩⟩
          · have hw₃ : wrap (fs.rawFsMemloc + (off + (4 + f.name.length)) + 4) =
                fs.rawFsMemloc + (off + (4 + f.name.length) + 4) := hm.wrap_eq (by omega) (by omega)
            have hw₄ : wrap (fs.rawFsMemloc + (off + (4 + f.name.length) + 4) + f.conts.length) =
                fs.rawFsMemloc + (off + (FileEntry.genf f.conts f.name).length) :=
              hm.wrap_eq (by omega) (by omega)
            simp only [hfn, decide_false, Bool.false_eq_true, if_false, hm.u32At hclen (by omega),
              Option.bind_some, hw₃, hw₄]
            obtain ⟨r, hr, hcases⟩ := ih hl fun g hg => hn g (.tail f hg)
            rw [List.take_succ_cons]
            refine ⟨r, hr, hcases.imp (fun h => ⟨h.1, List.forall_mem_cons.mpr ⟨hfn, h.2⟩⟩) ?_⟩
            rintro ⟨pre, g, post, hsplit, h⟩
            exact ⟨f :: pre, g, post, by rw [hsplit, List.cons_append], h⟩

/-- The loop finds the file of the name, or there is none. -/
theorem findFile_spec (hm : Mounted mem fs img) {files : List FileNode}
    (hl : FileList img off files) (hn : ∀ f ∈ files, f.name ≠ []) :
    ∃ r, findFile mem needed files.length (fs.rawFsMemloc + off) = some r ∧
      ((r = none ∧ ∀ f ∈ files, f.name ≠ needed) ∨
        ∃ f ∈ files, ∃ o, f.name = needed ∧ At img o (FileEntry.genf f.conts f.name) ∧
          r = some (fileAt fs o f)) := by
  obtain ⟨r, hr, hcases⟩ := findFile_take hm hl hn files.length
  rw [List.take_length] at hcases
  refine ⟨r, hr, hcases.imp_right ?_⟩
  rintro ⟨pre, f, post, hsplit, hfn, ha, hr⟩
  exact ⟨f, by rw [hsplit]; simp, _, hfn, ha, hr⟩

/-! ### Lists of directories -/

/-- The fields of a `BuiltDir` fit their types. -/
structure InRange (b : BuiltDir) : Prop where
  dirHdrAm : b.dirHdrAm < 2 ^ 16
  fAm : b.fAm < 2 ^ 16
  dirstart : b.dirstart < 2 ^ 32
  fstart : b.fstart < 2 ^ 32

/-- The counts and positions of a directory are read back. -/
theorem latter_spec (hm : Mounted mem fs img) {b : BuiltDir} {flgs : Nat}
    (ha : At img off (b.latter flgs)) (hb : InRange b) :
    dirHdrAm mem (fs.rawFsMemloc + off) = some b.dirHdrAm ∧
      fAm mem (fs.rawFsMemloc + off) = some b.fAm ∧
      dirstart mem (fs.rawFsMemloc + off) = some b.dirstart ∧
      fstart mem (fs.rawFsMemloc + off) = some b.fstart := by
  have hle : off + 16 ≤ img.length := by
    have := ha.le (by simp [BuiltDir.latter, filePositionHeader, pushU16LE, toLE])
    simpa [BuiltDir.latter, filePositionHeader, pushU32LE, pushU16LE] using this
  simp only [BuiltDir.latter, filePositionHeader, at_append_iff, pushU16LE, pushU32LE,
    List.length_append, length_toLE, Nat.reduceAdd] at ha
  obtain ⟨⟨⟨⟨hd, hf⟩, hds⟩, hfs⟩, -⟩ := ha
  refine ⟨hm.u16At hd hb.dirHdrAm, ?_, ?_, ?_⟩
  · rw [fAm, hm.wrap_eq (Nat.add_assoc ..) (by omega)]
    exact hm.u16At hf hb.fAm
  · rw [dirstart, hm.wrap_eq (Nat.add_assoc ..) (by omega)]
    exact hm.u32At hds hb.dirstart
  · rw [fstart, hm.wrap_eq (Nat.add_assoc ..) (by omega)]
    exact hm.u32At hfs hb.fstart

theorem latterOf_spec (hm : Mounted mem fs img) {dn : Name} {b : BuiltDir} {flgs : Nat}
    (ha : At img off (DirEntry.withName dn b flgs)) :
    latterOf mem (fs.rawFsMemloc + off) = some (fs.rawFsMemloc + (off + (4 + dn.length))) := by
  have hle := le_of_withName ha
  have hbase := hm.fits
  have hw₁ : wrap (fs.rawFsMemloc + off + 4) = fs.rawFsMemloc + (off + 4) :=
    hm.wrap_eq (by omega) (by omega)
  have hw₂ : wrap (fs.rawFsMemloc + (off + 4) + dn.length) =
      fs.rawFsMemloc + (off + (4 + dn.length)) := hm.wrap_eq (by omega) (by omega)
  simp only [latterOf, hm.u32At (at_withName_iff.mp ha).1.1 (by omega), Option.bind_eq_bind,
    Option.bind_some, hw₁, hw₂]
  rfl

/-- The loop finds the entry of the name among the first `n`, or there is none. -/
theorem findDir_spec (hm : Mounted mem fs img) {ps : List (Name × BuiltDir)}
    (hl : DirList img off ps) (hn : ∀ p ∈ ps, p.1 ≠ []) (n : Nat) :
    ∃ r, findDir mem needed n (fs.rawFsMemloc + off) = some r ∧
      ((r = none ∧ ∀ p ∈ ps.take n, p.1 ≠ needed) ∨
        ∃ p ∈ ps.take n, ∃ o flgs, p.1 = needed ∧ At img o (DirEntry.withName p.1 p.2 flgs) ∧
          r = some (fs.rawFsMemloc + o)) := by
  -- as for files: by the remaining count
  induction n generalizing off ps with
  | zero => exact ⟨none, rfl, .inl ⟨rfl, by simp⟩⟩
  | succ n ih =>
      cases ps with
      | nil =>
          refine ⟨none, ?_, .inl ⟨rfl, by simp⟩⟩
          simp [findDir, hm.u32At hl (by omega)]
      | cons p ps =>
          obtain ⟨flgs, hp, hl⟩ := hl
          obtain ⟨⟨hlen, hname⟩, -⟩ := at_withName_iff.mp hp
          have hend := le_of_dirList hl
          have hbase := hm.fits
          rw [length_withName] at hl hend
          have hne : p.1.length ≠ 0 := fun e =>
            hn p List.mem_cons_self (List.eq_nil_of_length_eq_zero e)
          have hw₁ : wrap (fs.rawFsMemloc + off + 4) = fs.rawFsMemloc + (off + 4) :=
            hm.wrap_eq (by omega) (by omega)
          simp only [findDir, hm.u32At hlen (by omega), hw₁, hm.nameIs hname,
            Option.bind_eq_bind, Option.bind_some, if_neg hne]
          by_cases hpn : p.1 = needed
          · exact ⟨some (fs.rawFsMemloc + off), by simp [hpn], .inr ⟨p, by simp, off, flgs, hpn, hp,
              rfl⟩⟩
          · have hw₂ : wrap (fs.rawFsMemloc + (off + 4) + p.1.length) =
                fs.rawFsMemloc + (off + (4 + p.1.length)) := hm.wrap_eq (by omega) (by omega)
            have hw₃ : wrap (fs.rawFsMemloc + (off + (4 + p.1.length)) + sizeofFph) =
                fs.rawFsMemloc + (off + (4 + p.1.length + 16)) :=
              hm.wrap_eq (by simp only [sizeofFph]; omega) (by omega)
            simp only [hpn, decide_false, Bool.false_eq_true, if_false, hw₂, hw₃]
            obtain ⟨r, hr, hcases⟩ := ih hl fun q hq => hn q (.tail p hq)
            refine ⟨r, hr, hcases.imp (fun h => ⟨h.1, ?_⟩) fun ⟨q, hq, h⟩ => ⟨q, ?_, h⟩⟩
            · rw [List.take_succ_cons]
              exact List.forall_mem_cons.mpr ⟨hpn, h.2⟩
            · rw [List.take_succ_cons]
              exact .tail p hq

/-! ### Stored directories -/

theorem take_storedAll : ∀ {ps : List (Name × BuiltDir)} {ds : List DirNode} (n : Nat),
    StoredAll img ps ds → StoredAll img (ps.take n) (ds.take n)
  | _, _, 0, _ => trivial
  | [], [], _ + 1, _ => trivial
  | _ :: _, _ :: _, n + 1, ⟨hn, h, hs⟩ => ⟨hn, h, take_storedAll n hs⟩

theorem dir_of_entry : ∀ {ps : List (Name × BuiltDir)} {ds : List DirNode} {p : Name × BuiltDir},
    StoredAll img ps ds → p ∈ ps → ∃ s ∈ ds, p.1 = s.name ∧ Stored img p.2 s
  | [], _, _, _, hp => nomatch hp
  | _ :: _, d :: _, _, ⟨hn, h, hs⟩, hp => by
      rcases List.mem_cons.mp hp with rfl | hp
      · exact ⟨d, List.mem_cons_self, hn, h⟩
      · obtain ⟨s, hs', h⟩ := dir_of_entry hs hp
        exact ⟨s, .tail d hs', h⟩

theorem entry_of_dir : ∀ {ps : List (Name × BuiltDir)} {ds : List DirNode} {s : DirNode},
    StoredAll img ps ds → s ∈ ds → ∃ p ∈ ps, p.1 = s.name
  | [], [], _, _, hd => nomatch hd
  | p :: _, _ :: _, _, ⟨hn, _, hs⟩, hd => by
      rcases List.mem_cons.mp hd with rfl | hd
      · exact ⟨p, List.mem_cons_self, hn⟩
      · obtain ⟨q, hq, h⟩ := entry_of_dir hs hd
        exact ⟨q, .tail p hq, h⟩

theorem names_of_storedAll : ∀ {ps : List (Name × BuiltDir)} {ds : List DirNode},
    StoredAll img ps ds → ps.map Prod.fst = ds.map (·.name)
  | [], [], _ => rfl
  | _ :: _, _ :: _, ⟨hn, _, hs⟩ => by
      rw [List.map_cons, List.map_cons, hn, names_of_storedAll hs]

variable {b : BuiltDir} {d : DirNode}

/-- The offsets of a stored directory are behind the headers and inside the image. -/
theorem inRange_of_stored (hm : Mounted mem fs img) (hr : Representable d) (hst : Stored img b d) :
    InRange b ∧ b.dirstart ≠ 0 ∧ b.fstart ≠ 0 ∧ b.dirstart < img.length ∧
      b.fstart < img.length := by
  obtain ⟨-, -, -, hf, hd, -⟩ := hr
  obtain ⟨⟨hfs, hfl, hfn⟩, hds, hdn, ps, hdl, -⟩ := hst
  have hf' := le_of_fileList hfl
  have hd' := le_of_dirList hdl
  have hbase := hm.fits
  have hstart : dataStart = 35 := rfl
  exact ⟨⟨hdn ▸ hd, hfn ▸ hf, by omega, by omega⟩, by omega, by omega, by omega, by omega⟩

/-- Searching the files of a stored directory. -/
theorem findOwnFile_spec (hm : Mounted mem fs img) (hr : Representable d) (hst : Stored img b d)
    (needed : Name) :
    ∃ r, findFile mem needed b.fAm (wrap (fs.rawFsMemloc + b.fstart)) = some r ∧
      ((r = none ∧ ∀ f ∈ d.files, f.name ≠ needed) ∨
        ∃ f ∈ d.files, ∃ o, f.name = needed ∧ At img o (FileEntry.genf f.conts f.name) ∧
          r = some (fileAt fs o f)) := by
  obtain ⟨-, -, -, -, hlt⟩ := inRange_of_stored hm hr hst
  obtain ⟨hn, -, -, -, -, -⟩ := hr
  obtain ⟨⟨-, hfl, hfn⟩, -⟩ := hst
  rw [hm.wrap_eq rfl hlt, hfn]
  exact findFile_spec hm hfl fun f hf => (hn f hf).ne_nil

/-- Searching the first `n` subdirectories of a stored directory. -/
theorem findSubdir_spec (hm : Mounted mem fs img) (hr : Representable d) (hst : Stored img b d)
    (needed : Name) (n : Nat) :
    ∃ r, findDir mem needed n (wrap (fs.rawFsMemloc + b.dirstart)) = some r ∧
      ((r = none ∧ ∀ s ∈ d.subdirs.take n, s.name ≠ needed) ∨
        ∃ s ∈ d.subdirs.take n, s.name = needed ∧ ∃ b' o flgs, Stored img b' s ∧
          At img o (DirEntry.withName s.name b' flgs) ∧ r = some (fs.rawFsMemloc + o)) := by
  obtain ⟨-, -, -, hlt, -⟩ := inRange_of_stored hm hr hst
  obtain ⟨-, hn, -, -, -, -⟩ := hr
  obtain ⟨-, -, -, ps, hdl, hall⟩ := hst
  have hnames : ∀ p ∈ ps, p.1 ≠ [] := fun p hp => by
    obtain ⟨s, hs, he, -⟩ := dir_of_entry hall hp
    rw [he]
    exact (hn s hs).ne_nil
  have htake := take_storedAll n hall
  obtain ⟨r, hf, ⟨rfl, hno⟩ | ⟨p, hp, o, flgs, hpn, hat, rfl⟩⟩ := findDir_spec hm hdl hnames n
  · refine ⟨none, by rwa [hm.wrap_eq rfl hlt], .inl ⟨rfl, fun s hs => ?_⟩⟩
    obtain ⟨p, hp, he⟩ := entry_of_dir htake hs
    exact he ▸ hno p hp
  · obtain ⟨s, hs, he, hst⟩ := dir_of_entry htake hp
    refine ⟨_, by rwa [hm.wrap_eq rfl hlt], .inr ⟨s, hs, he ▸ hpn, p.2, o, flgs, hst, ?_, rfl⟩⟩
    exact he ▸ hat

/-! ### `open` -/

/-- `r` is what opening the path `cs` in `d` should give: the file it names, or nothing. -/
def Opens (fs : RivFs) (img : List UInt8) (d : DirNode) (cs : List Name) (r : Option File) : Prop :=
  (r = none ∧ ∀ conts, ¬ HasFile d cs conts) ∨
    ∃ f o, HasFile d cs f.conts ∧ At img o (FileEntry.genf f.conts f.name) ∧
      r = some (fileAt fs o f)

variable {c c' : Name} {cs : List Name}

/-- The last name of a path is looked up among the files. -/
theorem opens_single (hm : Mounted mem fs img) (hr : Representable d) (hst : Stored img b d) :
    ∃ r, findFile mem c b.fAm (wrap (fs.rawFsMemloc + b.fstart)) = some r ∧
      Opens fs img d [c] r := by
  obtain ⟨r, h, ⟨rfl, hno⟩ | ⟨f, hf, o, rfl, hat, rfl⟩⟩ := findOwnFile_spec hm hr hst c
  · refine ⟨none, h, .inl ⟨rfl, fun conts hc => ?_⟩⟩
    obtain ⟨f, hf, hn, -⟩ := hasFile_single_iff.mp hc
    exact hno f hf hn
  · exact ⟨_, h, .inr ⟨f, o, .here hf, hat, rfl⟩⟩

/-- Any other one among the subdirectories, which the rest of the path then starts from. -/
theorem opens_cons (hm : Mounted mem fs img) (hr : Representable d) (hst : Stored img b d)
    (next : Nat → Option (Option File))
    (hnext : ∀ s ∈ d.subdirs, s.name = c → ∀ b' o flgs, Stored img b' s →
      At img o (DirEntry.withName s.name b' flgs) →
        ∃ r, next (fs.rawFsMemloc + o) = some r ∧ Opens fs img s (c' :: cs) r) :
    ∃ r, ((findDir mem c b.dirHdrAm (wrap (fs.rawFsMemloc + b.dirstart))).bind fun
        | none => some none
        | some entry => next entry) = some r ∧ Opens fs img d (c :: c' :: cs) r := by
  have hall : d.subdirs.take b.dirHdrAm = d.subdirs := by
    obtain ⟨n, files, subdirs⟩ := d
    obtain ⟨-, -, hdn, -⟩ := hst
    rw [hdn, DirNode.subdirs, List.take_length]
  obtain ⟨r, h, hcases⟩ := findSubdir_spec hm hr hst c b.dirHdrAm
  rw [hall] at hcases
  rcases hcases with ⟨rfl, hno⟩ | ⟨s, hs, rfl, b', o, flgs, hst', hat, rfl⟩
  · refine ⟨none, by rw [h]; rfl, .inl ⟨rfl, fun conts hc => ?_⟩⟩
    obtain ⟨s, hs, hn, -⟩ := hasFile_cons_iff.mp hc
    exact hno s hs hn
  · obtain ⟨r, hr', ho⟩ := hnext s hs rfl b' o flgs hst' hat
    refine ⟨r, by rw [h]; exact hr', ?_⟩
    rcases ho with ⟨rfl, hno⟩ | ⟨f, o', hf, hat', rfl⟩
    · refine .inl ⟨rfl, fun conts hc => ?_⟩
      obtain ⟨t, ht, hn, hc'⟩ := hasFile_cons_iff.mp hc
      obtain rfl := hr.dir_eq ht hs hn
      exact hno conts hc'
    · exact .inr ⟨f, o', .sub hs hf, hat', rfl⟩

theorem length_pos_of_isName (h : IsName c) : c.length ≠ 0 :=
  fun e => h.ne_nil (List.eq_nil_of_length_eq_zero e)

/-- The view of the names `c :: cs` that `findInDir` is called with. -/
def namesView (c : Name) (cs : List Name) : PathView := ⟨c ++ pathOf cs, (c ++ pathOf cs).length⟩

theorem findChar_namesView (h : IsName c) :
    (findChar (c ++ pathOf cs) slash != 0) = !cs.isEmpty := by
  rw [findChar_names h]
  cases cs with
  | nil => rfl
  | cons c' cs => simpa using h.ne_nil

/-- Down the rest of a path `findInDir` follows the tree. -/
theorem findInDir_spec (hm : Mounted mem fs img) (hcs : ∀ n ∈ c :: cs, IsName n)
    (hr : Representable d) (hst : Stored img b d) {n : Name} {flgs : Nat}
    (hat : At img off (DirEntry.withName n b flgs)) :
    ∃ r, findInDir mem fs (fs.rawFsMemloc + off) (namesView c cs) (!cs.isEmpty) = some r ∧
      Opens fs img d (c :: cs) r := by
  induction cs generalizing c d b off n flgs with
  | nil =>
      have hc := hcs c List.mem_cons_self
      obtain ⟨hrange, -⟩ := inRange_of_stored hm hr hst
      obtain ⟨-, hf, -, hfs⟩ := latter_spec hm (at_withName_iff.mp hat).2 hrange
      obtain ⟨r, h, ho⟩ := opens_single (c := c) hm hr hst
      refine ⟨r, ?_, ho⟩
      have hfind : findChar c slash = 0 := by simpa [pathOf] using findChar_names hc []
      rw [findInDir]
      simp [namesView, pathOf, hfind, latterOf_spec hm hat, hf, hfs, h]
  | cons c' cs ih =>
      have hc := hcs c List.mem_cons_self
      have hc' := hcs c' (by simp)
      obtain ⟨hrange, -⟩ := inRange_of_stored hm hr hst
      obtain ⟨hd, -, hds, -⟩ := latter_spec hm (at_withName_iff.mp hat).2 hrange
      obtain ⟨r, h, ho⟩ := opens_cons (c := c) hm hr hst
        (fun entry => findInDir mem fs entry (namesView c' cs) (!cs.isEmpty))
        fun s hs hn b' o flgs hst' hat' =>
          ih (fun n hn => hcs n (.tail c hn)) (hr.sub hs) hst' hat'
      refine ⟨r, ?_, ho⟩
      have hfind : findChar (c ++ pathOf (c' :: cs)) slash = c.length := by
        rw [findChar_names hc, if_neg (by simp)]
      have hlen : (c ++ pathOf (c' :: cs)).length = c.length + 1 + (c' ++ pathOf cs).length := by
        simp [pathOf_cons]; omega
      -- what the loop cuts off is the name and the slash behind it
      have hpos := length_pos_of_isName hc
      have hpos' := length_pos_of_isName hc'
      have hdrop : (c ++ pathOf (c' :: cs)).drop (c.length + 1) = c' ++ pathOf cs := by
        rw [drop_names, pathOf_cons, List.tail_cons]
      have hgt : ¬ (c ++ pathOf (c' :: cs)).length ≤ c.length + 1 := by
        rw [hlen, List.length_append]
        omega
      have hsub : (c ++ pathOf (c' :: cs)).length - (c.length + 1) = (c' ++ pathOf cs).length := by
        omega
      rw [findInDir]
      simp only [namesView, List.take_length, hfind, latterOf_spec hm hat, hd, hds, hpos,
        Option.bind_eq_bind, Option.bind_some, bne_iff_ne, ne_eq, not_false_eq_true, if_true,
        List.take_left, hgt, dif_neg, hdrop, hsub, findChar_namesView hc']
      rw [if_neg (by simp)]
      exact h

/-- A file system that passed the check, with the root's counts and positions behind `fph`. -/
structure Opened (mem : PMem) (fs : RivFs) (img : List UInt8) (root : DirNode) (b : BuiltDir) :
    Prop where
  mounted : Mounted mem fs img
  representable : Representable root
  stored : Stored img b root
  fph : fs.fph = fs.rawFsMemloc + headerSize
  header : At img headerSize (b.latter 0)

theorem Opened.fph_spec {root : DirNode} (h : Opened mem fs img root b) :
    dirHdrAm mem fs.fph = some b.dirHdrAm ∧ fAm mem fs.fph = some b.fAm ∧
      dirstart mem fs.fph = some b.dirstart ∧ fstart mem fs.fph = some b.fstart := by
  rw [h.fph]
  exact latter_spec h.mounted h.header (inRange_of_stored h.mounted h.representable h.stored).1

/-- `open` follows the tree from the root. -/
theorem open_spec {root : DirNode} (h : Opened mem fs img root b) {fp : CStr}
    (hcs : ∀ n ∈ c :: cs, IsName n) (hfp : fp.chars = pathOf (c :: cs)) :
    ∃ r, RivFs.open mem fs fp = some r ∧ Opens fs img root (c :: cs) r := by
  obtain ⟨hd, hf, hds, hfs⟩ := h.fph_spec
  have hc := hcs c List.mem_cons_self
  have hfp' : fp.chars = slash :: (c ++ pathOf cs) := hfp.trans pathOf_cons
  rw [RivFs.open, hfp', if_neg (by simp [charAt]), List.tail_cons, fileParts_names hc]
  cases cs with
  | nil =>
      obtain ⟨r, hr, ho⟩ := opens_single (c := c) h.mounted h.representable h.stored
      refine ⟨r, ?_, ho⟩
      have hparts : fileParts (pathOf []).tail = [] := by simp [pathOf, fileParts]
      simp [hparts, hf, hfs, hr]
  | cons c' cs =>
      have hc' := hcs c' (by simp)
      obtain ⟨r, hr, ho⟩ := opens_cons (c := c) h.mounted h.representable h.stored
        (fun entry => findInDir mem fs entry (namesView c' cs) (!cs.isEmpty))
        fun s hs hn b' o flgs hst' hat' =>
          findInDir_spec h.mounted (fun n hn => hcs n (.tail c hn)) (h.representable.sub hs) hst'
            hat'
      refine ⟨r, ?_, ho⟩
      have hfind : findChar (c ++ pathOf (c' :: cs)) slash = c.length := by
        rw [findChar_names hc, if_neg (by simp)]
      have hdrop : (slash :: (c ++ pathOf (c' :: cs))).drop (1 + c.length + 1) =
          c' ++ pathOf cs := by
        rw [Nat.add_comm 1, List.drop_succ_cons, drop_names, pathOf_cons, List.tail_cons]
      have hlen : strlen fp - 1 - c.length - 1 = (c' ++ pathOf cs).length := by
        simp [strlen, hfp', pathOf_cons]
      rw [show (pathOf (c' :: cs)).tail = c' ++ pathOf cs by rw [pathOf_cons, List.tail_cons],
        fileParts_names hc']
      simp only [List.isEmpty_cons, Bool.not_false, Bool.not_true, Bool.false_eq_true, if_false, hd,
        hds, hfind, hdrop, hlen, length_pos_of_isName hc, findChar_namesView hc',
        Option.bind_eq_bind, Option.bind_some]
      exact hr

/-! ### The round trip -/

/-- The headers that `main` writes pass the check. -/
theorem checkCorrectness_spec (hm : Mounted mem fs img)
    (hhdr : At img 0 (rivFsHeader fphSize headerSize [0, 0] 1))
    (hfph : At img headerSize (b.latter 0)) (hb : InRange b) (hds : b.dirstart ≠ 0)
    (hfs : b.fstart ≠ 0) :
    checkCorrectness mem fs = some (true, { fs with fph := fs.rawFsMemloc + headerSize }) := by
  have hle := hfph.le (by simp [BuiltDir.latter, filePositionHeader, pushU16LE, toLE])
  simp only [BuiltDir.latter, filePositionHeader, pushU32LE, pushU16LE, List.length_append,
    length_toLE, headerSize] at hle
  simp only [rivFsHeader, at_append_iff, pushU32LE, List.length_append, length_toLE,
    show MAGIC.length = 5 from rfl, List.length_cons, List.length_nil, Nat.reduceAdd] at hhdr
  obtain ⟨⟨⟨⟨hmagic, hsize⟩, hpos⟩, -⟩, hflgs⟩ := hhdr
  have hmagic' : peekEq mem fs.rawFsMemloc INITIAL_MAGIC = some true :=
    (hm.loaded.at hmagic).peekEq rfl
  obtain ⟨-, -, hd, hf⟩ := latter_spec hm hfph hb
  have hw : ∀ k, k < 35 → wrap (fs.rawFsMemloc + k) = fs.rawFsMemloc + k := fun k hk =>
    hm.wrap_eq rfl (by omega)
  have hpos' : fs.rawFsMemloc + headerSize = fs.rawFsMemloc + 19 := rfl
  simp only [checkCorrectness, hmagic', hw 5 (by omega), hw 9 (by omega), hw 15 (by omega),
    hw headerSize (by decide), hm.u32At hsize (by decide), hm.u32At hpos (by decide),
    hm.u32At hflgs (by decide), hd, hf, hds, hfs, Option.bind_eq_bind, Option.bind_some]
  rfl

theorem read_spec (hm : Mounted mem fs img) {f : FileNode}
    (ha : At img off (FileEntry.genf f.conts f.name)) :
    filesize mem (fileAt fs off f) = some f.conts.length ∧
      read mem (fileAt fs off f) = some (f.conts ++ [0]) := by
  have hle := ha.le (by simp [FileEntry.genf, pushU32LE, toLE])
  rw [length_genf] at hle
  have hbase := hm.fits
  obtain ⟨⟨hlen, -⟩, hclen, hconts⟩ := at_genf_iff.mp ha
  have hsize : filesize mem (fileAt fs off f) = some f.conts.length :=
    hm.u32At hclen (by omega)
  refine ⟨hsize, ?_⟩
  have hw₁ : wrap (fs.rawFsMemloc + off + f.name.length) =
      fs.rawFsMemloc + (off + f.name.length) := hm.wrap_eq (by omega) (by omega)
  have hpeek : peek mem (wrap (fs.rawFsMemloc + (off + f.name.length) + 8)) f.conts.length =
      some f.conts := by
    cases hc : f.conts with
    | nil => rfl
    | cons x xs =>
        rw [hc, List.length_cons] at hle
        have hw₂ : wrap (fs.rawFsMemloc + (off + f.name.length) + 8) =
            fs.rawFsMemloc + (off + (4 + f.name.length) + 4) := hm.wrap_eq (by omega) (by omega)
        rw [hw₂, ← hc]
        exact (hm.loaded.at hconts).peek
  rw [read, hsize]
  simp only [fileAt, hm.u32At hlen (by omega), hw₁, hpeek, Option.bind_eq_bind, Option.bind_some]
  rfl

/-- An image of `genfs` passes the check. -/
theorem exists_opened (junk : Nat → Nat) {root : DirNode} (hr : Representable root)
    (hm : Mounted mem fs (main junk root)) (hlen : (main junk root).length < 2 ^ 32) :
    ∃ fs' b, checkCorrectness mem fs = some (true, fs') ∧
      Opened mem fs' (main junk root) root b := by
  obtain ⟨b, hst, hhdr, hfph⟩ := main_stored hr hlen
  obtain ⟨hb, hds, hfs, -⟩ := inRange_of_stored hm hr hst
  exact ⟨_, b, checkCorrectness_spec hm hhdr hfph hb hds hfs, ⟨hm.loaded, hm.size, hm.fits⟩, hr,
    hst, rfl, hfph⟩

/-- **What `genfs` writes, `RivFs` reads.** -/
theorem open_roundtrip (junk : Nat → Nat) {root : DirNode} (hr : Representable root)
    (hm : Mounted mem fs (main junk root)) (hlen : (main junk root).length < 2 ^ 32) :
    ∃ fs', checkCorrectness mem fs = some (true, fs') ∧
      ∀ (fp : CStr) (cs : List Name), cs ≠ [] → (∀ n ∈ cs, IsName n) → fp.chars = pathOf cs →
        ∃ r, RivFs.open mem fs' fp = some r ∧
          (r.isSome = true ↔ ∃ conts, HasFile root cs conts) ∧
          ∀ f conts, r = some f → HasFile root cs conts →
            filesize mem f = some conts.length ∧ read mem f = some (conts ++ [0]) := by
  obtain ⟨fs', b, hcheck, hopened⟩ := exists_opened junk hr hm hlen
  refine ⟨fs', hcheck, fun fp cs hne hcs hfp => ?_⟩
  obtain ⟨c, cs, rfl⟩ := List.exists_cons_of_ne_nil hne
  obtain ⟨r, hopen, ⟨rfl, hno⟩ | ⟨f, o, hf, hat, rfl⟩⟩ := open_spec hopened hcs hfp
  · exact ⟨none, hopen, by simpa using hno, nofun⟩
  · refine ⟨_, hopen, iff_of_true rfl ⟨_, hf⟩, ?_⟩
    rintro _ conts ⟨⟩ hc
    rw [← hr.hasFile_unique hf hc]
    exact read_spec hopened.mounted hat

/-- The file `a` beside the directory `d` with the file `b`. -/
def smallTree : DirNode := .mk [] [⟨[97], [1, 2]⟩] [.mk [100] [⟨[98], [3]⟩] []]

theorem isName_single {x : UInt8} (hs : x ≠ slash) (h0 : x ≠ 0) : IsName [x] :=
  ⟨by simp, by simpa using Ne.symm hs, by simpa using Ne.symm h0⟩

theorem smallTree_representable : Representable smallTree := by
  refine .mk ?_ ?_ (by decide) (by decide) (by decide) ?_
  · rintro f (_ | ⟨_, ⟨⟩⟩)
    exact isName_single (by decide) (by decide)
  · rintro d (_ | ⟨_, ⟨⟩⟩)
    exact isName_single (by decide) (by decide)
  · rintro d (_ | ⟨_, ⟨⟩⟩)
    refine .mk ?_ nofun (by decide) (by decide) (by decide) nofun
    rintro f (_ | ⟨_, ⟨⟩⟩)
    exact isName_single (by decide) (by decide)

/-- Memory with nothing but an image at 1 MiB. -/
def imageMem (img : List UInt8) : PMem := fun a => if a < 0x100000 then none else img[a - 0x100000]?

theorem imageMem_mounted (img : List UInt8) (h : img.length ≤ 2 ^ 31) :
    Mounted (imageMem img) ⟨0x100000, img.length, 0⟩ img :=
  ⟨fun i b hb => by simpa [imageMem] using hb, rfl, by simp only; omega⟩

theorem length_smallTree : (main (fun _ => 0) smallTree).length = 101 := by decide

theorem smallTree_hasFile : HasFile smallTree [[100], [98]] [3] :=
  .sub (s := .mk [100] [⟨[98], [3]⟩] []) List.mem_cons_self
    (.here (f := ⟨[98], [3]⟩) List.mem_cons_self)

theorem smallTree_mounted : Mounted (imageMem (main (fun _ => 0) smallTree)) ⟨0x100000, 101, 0⟩
    (main (fun _ => 0) smallTree) := by
  have hm := imageMem_mounted (main (fun _ => 0) smallTree) (by rw [length_smallTree]; decide)
  rwa [length_smallTree] at hm

/-- `/d/b` is found in the image of the small tree. -/
theorem open_roundtrip_small : ∃ fs' f,
    checkCorrectness (imageMem (main (fun _ => 0) smallTree)) ⟨0x100000, 101, 0⟩ = some (true, fs') ∧
      RivFs.open (imageMem (main (fun _ => 0) smallTree)) fs' (.lit ['/', 'd', '/', 'b']) =
        some (some f) ∧
      read (imageMem (main (fun _ => 0) smallTree)) f = some [3, 0] := by
  obtain ⟨fs', hcheck, hopen⟩ := open_roundtrip (fun _ => 0) smallTree_representable
    smallTree_mounted (by rw [length_smallTree]; decide)
  have hnames : ∀ n ∈ [[100], [98]], IsName n := by
    rintro n (_ | ⟨_, _ | ⟨_, ⟨⟩⟩⟩)
    · exact isName_single (by decide) (by decide)
    · exact isName_single (by decide) (by decide)
  obtain ⟨r, hr, hsome, hread⟩ := hopen (.lit ['/', 'd', '/', 'b']) [[100], [98]] (by simp)
    hnames rfl
  obtain ⟨f, rfl⟩ := Option.isSome_iff_exists.mp (hsome.mpr ⟨_, smallTree_hasFile⟩)
  exact ⟨fs', f, hcheck, hr, (hread f [3] rfl smallTree_hasFile).2⟩

end RivOS.RivFs
