import RivOS.InitRamFs.Handles
import RivOS.Proc.Isolation
import RivOS.Rap.RapFile
import RivOS.Vfs.DriveTable

/-!
# InitRamFs — The drivers of the image

`InitRamFs::init` (`initramfs/init.hpp`) from the mounted image on: the directories `*.drv` under
`/drv/fs` are loaded one after the other, and `/etc/fs.cfg` is read for every one of them.  The
image is taken to lie where the loader stores nothing, and a buffer of the heap is the bytes in it.

* `Loads`: the drivers that there are can be loaded, in order.
* `initLoop_eq`: every one of them adds all drives to the table.
* `driveTable_iff`: when the table is the one that `/etc/fs.cfg` describes.
-/

namespace RivOS

open RivFs Genfs

namespace InitRamFs

/-! ### Paths -/

def drv : Name := ascii ['d', 'r', 'v']
def fsDir : Name := ascii ['f', 's']
def etc : Name := ascii ['e', 't', 'c']
def fsCfg : Name := ascii ['f', 's', '.', 'c', 'f', 'g']
def confCfg : Name := ascii ['c', 'o', 'n', 'f', '.', 'c', 'f', 'g']
def fnRap : Name := ascii ['f', 'n', '.', 'r', 'a', 'p']
def dotDrv : Name := ascii ['.', 'd', 'r', 'v']

/-- `/drv/fs/`. -/
def drvFs : List UInt8 := ascii ['/', 'd', 'r', 'v', '/', 'f', 's', '/']

def isDriver (dirname : Name) : Bool := dotDrv.isSuffixOf dirname

def genName : List UInt8 := ascii ['g', 'e', 'n', '.', 'n', 'a', 'm', 'e']
def genVers : List UInt8 := ascii ['g', 'e', 'n', '.', 'v', 'e', 'r', 's']
def genExecfp : List UInt8 := ascii ['g', 'e', 'n', '.', 'e', 'x', 'e', 'c', 'f', 'p']
def customFstype : List UInt8 :=
  ascii ['c', 'u', 's', 't', 'o', 'm', '.', 'f', 's', 't', 'y', 'p', 'e']

def requiredFields : List (List UInt8) := [genName, genVers, genExecfp, customFstype]

/-! ### The code -/

/-- What the loop changes. -/
structure State where
  kernel : Kernel
  mem : Mem
  driveEntries : List DriveEntry

section Code

variable (img : PMem) (fs : RivFs) (b : BootStack)

/-- A file that has to be there: its bytes, in a buffer. -/
def readFile (fp : List UInt8) (missing : String) : Except Halt (List UInt8) := do
  match ← orHalt .undefined (RivFs.open img fs (CStr.ofBuffer fp)) with
  | none => kpanic missing
  | some f =>
      let filesize ← orHalt .undefined (filesize img f)
      let buf ← orHalt .undefined (RivFs.read img f)
      return buf.take filesize

/-- `conf.mapping[field].strVal.toCStr()`. -/
def field (conf : Config) (key : List UInt8) : Except Halt (List UInt8) :=
  match conf.mapping.get key with
  | some (.string strVal) => .ok (Config.cstr strVal)
  | some _ => .error .undefined
  | none => kpanic valOnErr

/-- The executable of a driver, loaded. -/
def loadExec (drvFullFp : List UInt8) (s : State) : Except Halt State := do
  let elfbuf ← readFile img fs drvFullFp
    "Executable file in driver was incorrect (did not exist!)"
  let elfhdr ← orHalt .undefined (ElfHeader32.read (elfbuf[·]?))
  if !ElfExecutable.isValid elfhdr then
    kpanic "Executable file in driver was incorrect (is not a valid ELF!)"
  else
    let (_, kernel, mem) ← ElfExecutable.load (elfbuf[·]?) b .Kernel s.kernel s.mem
    return { s with kernel, mem }

/-- `fn.rap`, for `init` and again for `VFS::registerForFs`, which differ in what they say when it
is missing. -/
def readRap (dir : List UInt8) (missing : String) : Except Halt RapFile.Mapping := do
  let rapBuf ← readFile img fs (dir ++ slash :: fnRap) missing
  RapFile.parseFile (CStr.ofBuffer rapBuf)

/-- The body of the loop for a directory `*.drv`.  Its name is copied by `toCStr` for the first two
paths, and added to a `Str` for the others. -/
def initDriver (dirname : Name) (s : State) : Except Halt State := do
  let configFile ← readFile img fs (drvFs ++ Config.cstr dirname ++ slash :: confCfg)
    "Driver module did not contain /conf.cfg"
  let conf ← Config.parseSrc (Config.fresh (CStr.ofBuffer configFile))
  if conf.isErr then kpanic "Config in driver was invalid!"
  else if requiredFields.any fun k => !conf.mapping.exists k then
    kpanic "Missing field in driver"
  else
    let _drvName ← field conf genName
    let _drvVers ← field conf genVers
    let drvExecFp ← field conf genExecfp
    let _drvFsType ← field conf customFstype
    let s ← loadExec img fs b (drvFs ++ Config.cstr dirname ++ slash :: drvExecFp) s
    let drvDirFp := drvFs ++ dirname.filter (· ≠ 0)
    let _ ← readRap img fs drvDirFp "File in driver was not found: fn.rap"
    let fsConf ← readFile img fs (slash :: (etc ++ slash :: fsCfg))
      "No /etc/fs.cfg found, unable to mount fs"
    let driveEntries ← VFS.initFromSrc (CStr.ofBuffer fsConf) s.driveEntries
    let _ ← readRap img fs drvDirFp "Rap File not found for registering in driver module"
    return { s with driveEntries }

/-- One turn of the loop over the directories. -/
def initTurn (s : DirIterator × State) : Except Halt ((DirIterator × State) ⊕ State) := do
  let (expected, drvfsDirit) ← orHalt .undefined (dirItGetNextDir img fs s.1)
  match expected with
  | none => return .inr s.2
  | some dirdata =>
      let dirname ← orHalt .undefined (peek img dirdata.dirname.raw dirdata.dirname.len)
      if isDriver dirname then return .inl (drvfsDirit, ← initDriver img fs b dirname s.2)
      else return .inl (drvfsDirit, s.2)

def initLoop (s : DirIterator × State) : Except Halt State :=
  loop (initTurn img fs b) .undefined (fun s => s.1.dirsRemaining) s

def init (s : State) : Except Halt State := do
  let (correct, fs) ← orHalt .undefined (checkCorrectness img fs)
  if !correct then
    kpanic "Corrrupt initramfs. Serial log might have more information as to why."
  else
    match ← orHalt .undefined (getDirIt img fs (.lit ['/', 'd', 'r', 'v', '/', 'f', 's'])) with
    | none => kpanic "Corrupt initramfs: /drv/fs did not exist"
    | some drvfsDirit => initLoop img fs b (drvfsDirit, s)

end Code

/-! ### Drivers that can be loaded -/

/-- What is in the directory of a driver. -/
structure DriverFiles where
  confCfg : List UInt8
  conf : Config
  /-- The names of the path behind `gen.execfp`. -/
  execfp : List Name
  elf : List UInt8
  fnRap : List UInt8

/-- The directory `dirname` has the files of a driver, and its executable can be loaded. -/
structure DriverDir (root : DirNode) (b : BootStack) (dirname : Name) (f : DriverFiles)
    (s t : Kernel × Mem) : Prop where
  hasConf : HasFile root [drv, fsDir, dirname, confCfg] f.confCfg
  parses : Config.parseSrc (Config.fresh (CStr.ofBuffer f.confCfg)) = .ok f.conf
  noErr : f.conf.isErr = false
  fields : ∀ k ∈ requiredFields, ∃ strVal, f.conf.mapping.get k = some (.string strVal)
  execfp : f.conf.mapping.get genExecfp = some (.string (pathOf f.execfp).tail)
  execNames : f.execfp ≠ [] ∧ ∀ n ∈ f.execfp, IsName n
  hasExec : HasFile root (drv :: fsDir :: dirname :: f.execfp) f.elf
  valid : ∃ hdr, ElfHeader32.read (f.elf[·]?) = some hdr ∧ ElfExecutable.isValid hdr = true
  loads : ∃ proc, ElfExecutable.load (f.elf[·]?) b .Kernel s.1 s.2 = .ok (proc, t)
  hasRap : HasFile root [drv, fsDir, dirname, fnRap] f.fnRap
  functions : ∃ m, RapFile.parseFile (CStr.ofBuffer f.fnRap) = .ok m

/-- The drivers among the directories `names` can be loaded, one after the other. -/
inductive Loads (root : DirNode) (b : BootStack) :
    List Name → Kernel × Mem → Kernel × Mem → Prop where
  | nil {s : Kernel × Mem} : Loads root b [] s s
  | other {n : Name} {names : List Name} {s t : Kernel × Mem} (h : isDriver n = false)
      (hs : Loads root b names s t) : Loads root b (n :: names) s t
  | driver {n : Name} {names : List Name} {f : DriverFiles} {s u t : Kernel × Mem}
      (h : isDriver n = true) (hd : DriverDir root b n f s u) (hs : Loads root b names u t) :
      Loads root b (n :: names) s t

/-! ### Files -/

variable {img : PMem} {fs : RivFs} {bytes : List UInt8} {b : BootStack} {bd : BuiltDir}
  {root : DirNode} {cs : List Name} {c dirname : Name} {conts fp : List UInt8} {f : DriverFiles}
  {k : List UInt8} {conf : Config} {drives : List VFS.Drive} {s t : Kernel × Mem}

theorem nulFree_pathOf (hcs : ∀ n ∈ cs, IsName n) : 0 ∉ pathOf cs := by
  rw [pathOf, List.mem_flatMap]
  rintro ⟨n, hn, h0⟩
  rcases List.mem_cons.mp h0 with h0 | h0
  · cases h0
  · exact (hcs n hn).nul h0

theorem drvFs_append (dirname : Name) (cs : List Name) :
    drvFs ++ dirname ++ pathOf cs = pathOf (drv :: fsDir :: dirname :: cs) := by
  simp only [pathOf, List.flatMap_cons, List.cons_append, List.append_assoc]
  rfl

/-- A file of the tree is read. -/
theorem readFile_eq (h : Opened img fs bytes root bd) (hcs : ∀ n ∈ c :: cs, IsName n)
    (hfp : fp = pathOf (c :: cs)) (hfile : HasFile root (c :: cs) conts) (missing : String) :
    readFile img fs fp missing = .ok conts := by
  subst hfp
  have hchars : (CStr.ofBuffer (pathOf (c :: cs))).chars = pathOf (c :: cs) := by
    rw [CStr.ofBuffer_of_nulFree (nulFree_pathOf hcs)]
  obtain ⟨r, hopen, ⟨-, hno⟩ | ⟨f, o, hf, hat, rfl⟩⟩ := open_spec h hcs hchars
  · exact absurd hfile (hno conts)
  · obtain ⟨hsize, hread⟩ := read_spec h.mounted hat
    rw [h.representable.hasFile_unique hfile hf, readFile, hopen]
    simp only [orHalt, ok_bind, hsize, hread]
    exact congrArg _ List.take_left

theorem isName_drv : IsName drv := ⟨by decide, by decide, by decide⟩
theorem isName_fsDir : IsName fsDir := ⟨by decide, by decide, by decide⟩
theorem isName_confCfg : IsName confCfg := ⟨by decide, by decide, by decide⟩
theorem isName_fnRap : IsName fnRap := ⟨by decide, by decide, by decide⟩

theorem readFile_driver (h : Opened img fs bytes root bd) (hn : IsName dirname)
    (hcs : ∀ n ∈ cs, IsName n) (hfile : HasFile root (drv :: fsDir :: dirname :: cs) conts)
    (missing : String) : readFile img fs (drvFs ++ dirname ++ pathOf cs) missing = .ok conts := by
  refine readFile_eq h ?_ (drvFs_append dirname cs) hfile missing
  simpa [isName_drv, isName_fsDir, hn] using hcs

theorem slash_cons (n : Name) : slash :: n = pathOf [n] := by simp [pathOf]

theorem names_singleton {n : Name} (h : IsName n) : ∀ m ∈ [n], IsName m := by
  intro m hm
  rwa [List.mem_singleton.mp hm]

theorem isName_fsCfgPath : ∀ n ∈ [etc, fsCfg], IsName n := by
  rintro n (_ | ⟨_, _ | ⟨_, ⟨⟩⟩⟩)
  · exact ⟨by decide, by decide, by decide⟩
  · exact ⟨by decide, by decide, by decide⟩

theorem readRap_eq (h : Opened img fs bytes root bd) (hn : IsName dirname)
    (hd : DriverDir root b dirname f s t) (missing : String) :
    ∃ m, readRap img fs (drvFs ++ dirname) missing = .ok m := by
  obtain ⟨m, hm⟩ := hd.functions
  refine ⟨m, ?_⟩
  rw [readRap, slash_cons, readFile_driver h hn (names_singleton isName_fnRap) hd.hasRap, ok_bind,
    hm]

theorem loadExec_eq (h : Opened img fs bytes root bd) (hn : IsName dirname)
    (hd : DriverDir root b dirname f s t) (entries : List DriveEntry) :
    loadExec img fs b (drvFs ++ dirname ++ slash :: (pathOf f.execfp).tail) ⟨s.1, s.2, entries⟩ =
      .ok ⟨t.1, t.2, entries⟩ := by
  obtain ⟨hdr, hread, hvalid⟩ := hd.valid
  obtain ⟨proc, hload⟩ := hd.loads
  obtain ⟨hne, hnames⟩ := hd.execNames
  have htail : slash :: (pathOf f.execfp).tail = pathOf f.execfp := by
    obtain ⟨c, cs, hcs⟩ := List.exists_cons_of_ne_nil hne
    rw [hcs, pathOf_cons, List.tail_cons]
  rw [loadExec, htail, readFile_driver h hn hnames hd.hasExec, ok_bind, hread]
  simp only [orHalt, ok_bind, hvalid, hload]
  rfl

theorem field_eq {strVal : List UInt8} (h : conf.mapping.get k = some (.string strVal)) :
    field conf k = .ok (Config.cstr strVal) := by
  rw [field, h]

/-- The table grows by all drives. -/
theorem initDriver_eq (h : Opened img fs bytes root bd) (hn : IsName dirname)
    (hd : DriverDir root b dirname f s t) {cfg : List UInt8}
    (hcfg : HasFile root [etc, fsCfg] cfg)
    (hparse : Config.parseSrc (Config.fresh (CStr.ofBuffer cfg)) = .ok conf)
    (hdesc : VFS.Describes conf drives) (entries : List DriveEntry) :
    initDriver img fs b dirname ⟨s.1, s.2, entries⟩ =
      .ok ⟨t.1, t.2, entries ++ drives.map VFS.Drive.entry⟩ := by
  have hcstr : Config.cstr dirname = dirname := Config.cstr_eq hn.nul
  have hfilter : dirname.filter (· ≠ 0) = dirname :=
    List.filter_eq_self.mpr fun c hc => by simpa using fun h0 : c = 0 => hn.nul (h0 ▸ hc)
  have hconf := readFile_driver h hn (names_singleton isName_confCfg) hd.hasConf
  have hfsCfg := readFile_eq h isName_fsCfgPath rfl hcfg
  have hexec : Config.cstr (pathOf f.execfp).tail = (pathOf f.execfp).tail :=
    Config.cstr_eq fun h0 => nulFree_pathOf hd.execNames.2 (List.mem_of_mem_tail h0)
  have hrequired : (requiredFields.any fun k => !f.conf.mapping.exists k) = false := by
    refine List.any_eq_false.mpr fun k hk => ?_
    obtain ⟨_, hget⟩ := hd.fields k hk
    rw [Map.exists_of_get hget]
    decide
  obtain ⟨_, hname⟩ := hd.fields genName (by decide)
  obtain ⟨_, hvers⟩ := hd.fields genVers (by decide)
  obtain ⟨_, hfstype⟩ := hd.fields customFstype (by decide)
  obtain ⟨m, hrap⟩ := readRap_eq h hn hd "File in driver was not found: fn.rap"
  obtain ⟨m', hrap'⟩ := readRap_eq h hn hd "Rap File not found for registering in driver module"
  have hpath : slash :: (etc ++ slash :: fsCfg) = pathOf [etc, fsCfg] := rfl
  rw [initDriver, hcstr, hfilter, slash_cons confCfg, hconf, ok_bind, hd.parses, ok_bind, hd.noErr,
    hrequired, hpath]
  simp only [field_eq hname, field_eq hvers, field_eq hd.execfp, field_eq hfstype, ok_bind, hexec,
    loadExec_eq h hn hd, hrap, hrap', hfsCfg, VFS.initFromSrc_eq hparse hdesc]
  rfl

/-! ### The loop -/

theorem dirsRemaining_lt {dirit dirit' : DirIterator} {dd : DirData}
    (h : dirItGetNextDir img fs dirit = some (some dd, dirit')) :
    dirit'.dirsRemaining < dirit.dirsRemaining := by
  rw [dirItGetNextDir] at h
  split at h
  · cases h
  · next hne =>
      obtain ⟨svLen, -, h⟩ := Option.bind_eq_some_iff.mp h
      dsimp only at h
      split at h <;> cases h
      exact Nat.sub_lt (Nat.pos_of_ne_zero hne) Nat.one_pos

theorem shrinks_initTurn : Shrinks (initTurn img fs b) fun s => s.1.dirsRemaining := by
  intro s t h
  obtain ⟨⟨expected, dirit⟩, hnext, h⟩ := bind_eq_ok.mp h
  rw [orHalt_eq_ok] at hnext
  cases expected with
  | none => cases h
  | some dd =>
      obtain ⟨dirname, -, h⟩ := bind_eq_ok.mp h
      split at h
      · obtain ⟨s', -, h⟩ := bind_eq_ok.mp h
        cases h
        exact dirsRemaining_lt hnext
      · cases h
        exact dirsRemaining_lt hnext

/-- **Every driver adds all drives to the table.** -/
theorem initLoop_eq (h : Opened img fs bytes root bd) {cfg : List UInt8}
    (hcfg : HasFile root [etc, fsCfg] cfg)
    (hparse : Config.parseSrc (Config.fresh (CStr.ofBuffer cfg)) = .ok conf)
    (hdesc : VFS.Describes conf drives) {ps : List (Name × BuiltDir)} {files : List FileNode}
    {dirit : DirIterator} (hps : ∀ p ∈ ps, IsName p.1) (hb : Before bytes dirit ps files)
    (hl : Loads root b (ps.map Prod.fst) s t) (entries : List DriveEntry) :
    initLoop img fs b (dirit, ⟨s.1, s.2, entries⟩) =
      .ok ⟨t.1, t.2, entries ++ (List.replicate ((ps.map Prod.fst).countP isDriver)
        (drives.map VFS.Drive.entry)).flatten⟩ := by
  induction ps generalizing dirit s entries with
  | nil =>
      cases hl
      have hturn : initTurn img fs b (dirit, ⟨t.1, t.2, entries⟩) =
          .ok (.inr ⟨t.1, t.2, entries⟩) := by
        rw [initTurn, nextDir_nil hb]
        rfl
      rw [initLoop, loop_leave hturn, List.map_nil, List.countP_nil, List.replicate_zero,
        List.flatten_nil, List.append_nil]
  | cons p ps ih =>
      obtain ⟨dd, dirit', hnext, hname, -, hb'⟩ := nextDir_cons h.mounted hb
      have hpeek : peek img dd.dirname.raw dd.dirname.len = some p.1 := by
        obtain ⟨n, hn, he⟩ := Option.map_eq_some_iff.mp hname
        rw [hn, Option.some.inj he]
      have hrest := fun q hq => hps q (List.mem_cons_of_mem p hq)
      rw [List.map_cons] at hl ⊢
      cases hl with
      | other hno hl =>
          have hturn : initTurn img fs b (dirit, ⟨s.1, s.2, entries⟩) =
              .ok (.inl (dirit', ⟨s.1, s.2, entries⟩)) := by
            simp only [initTurn, hnext, orHalt, ok_bind, hpeek, hno]
            rfl
          rw [initLoop, loop_turn shrinks_initTurn hturn,
            List.countP_cons_of_neg (Bool.not_eq_true _ ▸ hno)]
          exact ih hrest hb' hl entries
      | @driver _ _ f _ u _ hyes hd hl =>
          have hdriver := initDriver_eq h (hps p List.mem_cons_self) hd hcfg hparse hdesc entries
          have hturn : initTurn img fs b (dirit, ⟨s.1, s.2, entries⟩) =
              .ok (.inl (dirit', ⟨u.1, u.2, entries ++ drives.map VFS.Drive.entry⟩)) := by
            simp only [initTurn, hnext, orHalt, ok_bind, hpeek, hyes, hdriver]
            rfl
          rw [initLoop, loop_turn shrinks_initTurn hturn, List.countP_cons_of_pos hyes,
            List.replicate_succ, List.flatten_cons, ← List.append_assoc]
          exact ih hrest hb' hl _

/-! ### The table -/

/-- What `init` does: it gets to `/drv/fs` and goes through all drivers, or panics. -/
theorem init_cases (junk : Nat → Nat) (hr : Representable root)
    (hm : Mounted img fs (main junk root)) (hlen : (main junk root).length < 2 ^ 32) {d : DirNode}
    (hdir : HasDir root [drv, fsDir] d) (hl : Loads root b (d.subdirs.map (·.name)) s t)
    {cfg : List UInt8} (hcfg : HasFile root [etc, fsCfg] cfg)
    (hparse : Config.parseSrc (Config.fresh (CStr.ofBuffer cfg)) = .ok conf)
    (hdesc : VFS.Describes conf drives) :
    (¬ Reach root.subdirs.length root [drv, fsDir] d ∧
        init img fs b ⟨s.1, s.2, []⟩ = kpanic "Corrupt initramfs: /drv/fs did not exist") ∨
      (Reach root.subdirs.length root [drv, fsDir] d ∧
        init img fs b ⟨s.1, s.2, []⟩ = .ok ⟨t.1, t.2, (List.replicate
          ((d.subdirs.map (·.name)).countP isDriver) (drives.map VFS.Drive.entry)).flatten⟩) := by
  obtain ⟨fs', bd, hcheck, hopened⟩ := exists_opened junk hr hm hlen
  have hnames : ∀ n ∈ [drv, fsDir], IsName n := by
    rintro n (_ | ⟨_, _ | ⟨_, ⟨⟩⟩⟩)
    · exact isName_drv
    · exact isName_fsDir
  obtain ⟨r, hget, hcases⟩ := getDirIt_walk hopened hnames
    (show (CStr.lit ['/', 'd', 'r', 'v', '/', 'f', 's']).chars = dirPath [drv, fsDir] by decide)
  rcases hcases with ⟨rfl, hno⟩ | ⟨d', b', hreach, hrd, hst, rfl⟩
  · have hinit : init img fs b ⟨s.1, s.2, []⟩ =
        kpanic "Corrupt initramfs: /drv/fs did not exist" := by
      simp only [init, hcheck, orHalt, ok_bind, hget]
      rfl
    exact .inl ⟨hno d, hinit⟩
  · have hinit : init img fs b ⟨s.1, s.2, []⟩ =
        initLoop img fs' b (iterOf b', ⟨s.1, s.2, []⟩) := by
      simp only [init, hcheck, orHalt, ok_bind, hget]
      rfl
    obtain rfl := hr.hasDir_unique hdir hreach.hasDir
    obtain ⟨ps, hbefore, hall⟩ := before_of_stored hrd hst
    have hps : ps.map Prod.fst = d.subdirs.map (·.name) := names_of_storedAll hall
    have hdirnames : ∀ p ∈ ps, IsName p.1 := by
      intro p hp
      obtain ⟨sub, hsub, he, -⟩ := dir_of_entry hall hp
      exact he ▸ hrd.dirName hsub
    have hloop := initLoop_eq hopened hcfg hparse hdesc hdirnames hbefore (hps.symm ▸ hl) []
    rw [List.nil_append, hps] at hloop
    exact .inr ⟨hreach, hinit.trans hloop⟩

/-- **When the drive table is what `/etc/fs.cfg` says**: `getDirIt` gets to `/drv/fs`, and there is
nothing to enter, or one driver and no number above 255. -/
theorem driveTable_iff (junk : Nat → Nat) (hr : Representable root)
    (hm : Mounted img fs (main junk root)) (hlen : (main junk root).length < 2 ^ 32) {d : DirNode}
    (hdir : HasDir root [drv, fsDir] d) (hl : Loads root b (d.subdirs.map (·.name)) s t)
    {cfg : List UInt8} (hcfg : HasFile root [etc, fsCfg] cfg)
    (hparse : Config.parseSrc (Config.fresh (CStr.ofBuffer cfg)) = .ok conf)
    (hdesc : VFS.Describes conf drives) :
    (∃ s', init img fs b ⟨s.1, s.2, []⟩ = .ok s' ∧ VFS.Tabulates s'.driveEntries drives) ↔
      Reach root.subdirs.length root [drv, fsDir] d ∧ (drives = [] ∨
        (d.subdirs.map (·.name)).countP isDriver = 1 ∧ ∀ e ∈ drives, e.drive < 256) := by
  rcases init_cases junk hr hm hlen hdir hl hcfg hparse hdesc with ⟨hno, hinit⟩ | ⟨hreach, hinit⟩
  · have hnot : ¬ ∃ s', init img fs b ⟨s.1, s.2, []⟩ = .ok s' ∧
        VFS.Tabulates s'.driveEntries drives := by
      rintro ⟨s', hs, -⟩
      rw [hinit] at hs
      cases hs
    exact iff_of_false hnot fun h => hno h.1
  · rw [and_iff_right hreach, ← VFS.tabulates_iff, hinit]
    constructor
    · rintro ⟨s', hs, htab⟩
      cases hs
      exact htab
    · exact fun htab => ⟨_, rfl, htab⟩

/-! ### Two images -/

open Config (Line) in
def driverConf : List Line :=
  [.header (.lit ['g', 'e', 'n']),
    .assign (ascii ['n', 'a', 'm', 'e']) [] [] (.quoted (.lit ['r'])),
    .assign (ascii ['v', 'e', 'r', 's']) [] [] (.quoted (.lit ['1'])),
    .assign (ascii ['e', 'x', 'e', 'c', 'f', 'p']) [] [] (.quoted (.lit ['d', '.', 'e', 'l', 'f'])),
    .header (.lit ['c', 'u', 's', 't', 'o', 'm']),
    .assign (ascii ['f', 's', 't', 'y', 'p', 'e']) [] [] (.quoted (.lit ['r', 'a', 'm']))]

/-- `drives.a`, with number 1 and the file system `ram`. -/
def drivesConf : List Config.Line :=
  [.header (.lit ['d', 'r', 'i', 'v', 'e', 's', '.', 'a']),
    .assign (ascii ['d', 'r', 'i', 'v', 'e']) [] [] (.digits [49]),
    .assign (ascii ['f', 's']) [] [] (.quoted (.lit ['r', 'a', 'm']))]

def someDrive : VFS.Drive where
  name := .lit ['d', 'r', 'i', 'v', 'e', 's', '.', 'a']
  drive := 1
  fsName := .lit ['r', 'a', 'm']

def driverElf : Name := ascii ['d', '.', 'e', 'l', 'f']

def driverDir (n : Name) : DirNode :=
  .mk n [⟨confCfg, Config.text driverConf⟩, ⟨driverElf, System.bareFile⟩,
    ⟨fnRap, RapFileSubDriver.text [RapFileSubDriver.putPixel]⟩] []

def driversDir (names : List Name) : DirNode := .mk fsDir [] (names.map driverDir)

/-- A tree with these drivers. -/
def bootTree (names : List Name) : DirNode :=
  .mk [] [] [.mk drv [] [driversDir names], .mk etc [⟨fsCfg, Config.text drivesConf⟩] []]

def aDrv : Name := ascii ['a', '.', 'd', 'r', 'v']
def bDrv : Name := ascii ['b', '.', 'd', 'r', 'v']

variable {names : List Name} {n : Name} {k k' : Kernel} {mem mem' : Mem} {p : Process}

theorem bootTree_representable (hn : ∀ n ∈ names, IsName n) (hnodup : names.Nodup)
    (hlen : names.length < 2 ^ 16) : Representable (bootTree names) := by
  have hname : ∀ n : Name, n ≠ [] ∧ slash ∉ n ∧ 0 ∉ n → IsName n := fun _ h => ⟨h.1, h.2.1, h.2.2⟩
  have hdriver : ∀ n, Representable (driverDir n) := fun n =>
    .mk (by
      rintro f (_ | ⟨_, _ | ⟨_, _ | ⟨_, ⟨⟩⟩⟩⟩)
      · exact hname _ (by decide)
      · exact hname _ (by decide)
      · exact hname _ (by decide)) nofun (by decide +kernel) (by decide) (by decide) nofun
  have hdrivers : Representable (driversDir names) := by
    have hnames : (names.map driverDir).map (·.name) = names := by
      rw [List.map_map]
      exact List.map_id names
    refine .mk nofun ?_ (by rwa [hnames]) (by decide) (by rwa [List.length_map]) ?_
    · intro d hd
      obtain ⟨n, hmem, rfl⟩ := List.mem_map.mp hd
      exact hn n hmem
    · intro d hd
      obtain ⟨n, -, rfl⟩ := List.mem_map.mp hd
      exact hdriver n
  have hroot : [drv, etc].Nodup := by decide
  refine .mk nofun ?_ hroot (by decide) (show 2 < 2 ^ 16 by decide) ?_
  · rintro d (_ | ⟨_, _ | ⟨_, ⟨⟩⟩⟩)
    · exact isName_drv
    · exact hname _ (by decide)
  · rintro d (_ | ⟨_, _ | ⟨_, ⟨⟩⟩⟩)
    · refine .mk nofun ?_ (by simp) (by decide) (show 1 < 2 ^ 16 by decide) ?_
      · rintro d (_ | ⟨_, ⟨⟩⟩)
        exact isName_fsDir
      · rintro d (_ | ⟨_, ⟨⟩⟩)
        exact hdrivers
    · refine .mk ?_ nofun (by decide) (by decide) (by decide) nofun
      rintro f (_ | ⟨_, ⟨⟩⟩)
      exact hname _ (by decide)

theorem bootTree_hasDir : HasDir (bootTree names) [drv, fsDir] (driversDir names) :=
  .sub (s := .mk drv [] [driversDir names]) List.mem_cons_self
    (.sub (s := driversDir names) List.mem_cons_self .here)

theorem bootTree_reach :
    Reach (bootTree names).subdirs.length (bootTree names) [drv, fsDir] (driversDir names) :=
  .sub (s := .mk drv [] [driversDir names]) List.mem_cons_self
    (.sub (s := driversDir names) List.mem_cons_self .here)

theorem bootTree_hasFile (hn : n ∈ names) {f : FileNode} (hf : f ∈ (driverDir n).files) :
    HasFile (bootTree names) [drv, fsDir, n, f.name] f.conts :=
  .sub (s := .mk drv [] [driversDir names]) List.mem_cons_self
    (.sub (s := driversDir names) List.mem_cons_self
      (.sub (s := driverDir n) (List.mem_map_of_mem hn) (.here hf)))

theorem bootTree_fsCfg : HasFile (bootTree names) [etc, fsCfg] (Config.text drivesConf) :=
  .sub (s := .mk etc [⟨fsCfg, Config.text drivesConf⟩] []) (.tail _ List.mem_cons_self)
    (.here (f := ⟨fsCfg, Config.text drivesConf⟩) List.mem_cons_self)

theorem exists_drivesConf : ∃ conf,
    Config.parseSrc (Config.fresh (CStr.ofBuffer (Config.text drivesConf))) = .ok conf ∧
      VFS.Describes conf [someDrive] := by
  have hparse : (Config.parseSrc (Config.fresh (CStr.ofBuffer (Config.text drivesConf)))).map
      (fun conf => (conf.isErr, conf.getAllSubsections VFS.drivesDot,
        conf.mapping.get (someDrive.name.chars ++ VFS.dotDrive),
        conf.mapping.get (someDrive.name.chars ++ VFS.dotFs))) =
      .ok (false, [someDrive.name.chars], some (.int 1),
        some (.string someDrive.fsName.chars)) := by
    decide +kernel
  obtain ⟨conf, hconf, hobs⟩ := map_eq_ok.mp hparse
  simp only [Prod.mk.injEq] at hobs
  obtain ⟨hnoErr, hsections, hdrive, hfs⟩ := hobs
  refine ⟨conf, hconf, hnoErr, hsections, by simp, ?_, ?_⟩
  · rintro d (_ | ⟨_, ⟨⟩⟩)
    exact ⟨1, hdrive, rfl⟩
  · rintro d (_ | ⟨_, ⟨⟩⟩)
    exact hfs

/-- Every driver of the tree can be loaded where its executable can. -/
theorem bootTree_driverDir {b : BootStack} {s t : Kernel × Mem} (hn : n ∈ names)
    (hload : ElfExecutable.load (System.bareFile[·]?) b .Kernel s.1 s.2 = .ok (p, t)) :
    ∃ f, DriverDir (bootTree names) b n f s t := by
  have hparse : (Config.parseSrc (Config.fresh (CStr.ofBuffer (Config.text driverConf)))).map
      (fun conf => (conf.isErr, requiredFields.map conf.mapping.get)) =
      .ok (false, [some (.string (ascii ['r'])), some (.string (ascii ['1'])),
        some (.string driverElf), some (.string (ascii ['r', 'a', 'm']))]) := by
    decide +kernel
  obtain ⟨conf, hconf, hobs⟩ := map_eq_ok.mp hparse
  simp only [Prod.mk.injEq, requiredFields, List.map_cons, List.map_nil, List.cons.injEq] at hobs
  obtain ⟨hnoErr, hname, hvers, hexecfp, hfstype, -⟩ := hobs
  have hrap : (RapFile.parseFile (CStr.ofBuffer
      (RapFileSubDriver.text [RapFileSubDriver.putPixel]))).map (fun _ => ()) = .ok () := by
    decide +kernel
  obtain ⟨functions, hfunctions, -⟩ := map_eq_ok.mp hrap
  refine ⟨⟨Config.text driverConf, conf, [driverElf], System.bareFile,
    RapFileSubDriver.text [RapFileSubDriver.putPixel]⟩, ?_⟩
  exact
    { hasConf := bootTree_hasFile hn (f := ⟨confCfg, _⟩) List.mem_cons_self
      parses := hconf
      noErr := hnoErr
      fields := by
        rintro k (_ | ⟨_, _ | ⟨_, _ | ⟨_, _ | ⟨_, ⟨⟩⟩⟩⟩⟩)
        · exact ⟨_, hname⟩
        · exact ⟨_, hvers⟩
        · exact ⟨_, hexecfp⟩
        · exact ⟨_, hfstype⟩
      execfp := hexecfp
      execNames := by
        refine ⟨List.cons_ne_nil _ _, ?_⟩
        rintro n (_ | ⟨_, ⟨⟩⟩)
        exact ⟨by decide, by decide, by decide⟩
      hasExec := bootTree_hasFile hn (f := ⟨driverElf, _⟩) (.tail _ List.mem_cons_self)
      valid := ⟨_, rfl, by decide⟩
      loads := ⟨p, hload⟩
      hasRap := bootTree_hasFile hn (f := ⟨fnRap, _⟩)
        (.tail _ (.tail _ List.mem_cons_self))
      functions := ⟨functions, hfunctions⟩ }

/-- The bare executable, loaded into a fresh kernel and then once more. -/
theorem exists_loads : ∃ p u p' t,
    ElfExecutable.load (System.bareFile[·]?) System.bootStack .Kernel (System.freshKernel 16 64)
      (fun _ => 0) = .ok (p, u) ∧
    ElfExecutable.load (System.bareFile[·]?) System.bootStack .Kernel u.1 u.2 = .ok (p', t) := by
  have hrun : ((ElfExecutable.load (System.bareFile[·]?) System.bootStack .Kernel
      (System.freshKernel 16 64) fun _ => 0).bind fun r => (ElfExecutable.load
        (System.bareFile[·]?) System.bootStack .Kernel r.2.1 r.2.2).map fun _ => ()) = .ok () := by
    decide +kernel
  obtain ⟨⟨p, u⟩, hfirst, hrest⟩ := bind_eq_ok.mp hrun
  obtain ⟨⟨p', t⟩, hsecond, -⟩ := map_eq_ok.mp hrest
  exact ⟨p, u, p', t, hfirst, hsecond⟩

/-- With one driver the table is what `/etc/fs.cfg` says. -/
theorem driveTable_one : ∃ s',
    init (imageMem (main (fun _ => 0) (bootTree [aDrv])))
        ⟨0x100000, (main (fun _ => 0) (bootTree [aDrv])).length, 0⟩ System.bootStack
        ⟨System.freshKernel 16 64, fun _ => 0, []⟩ = .ok s' ∧
      VFS.Tabulates s'.driveEntries [someDrive] := by
  have hlen : (main (fun _ => 0) (bootTree [aDrv])).length ≤ 2 ^ 31 := by decide +kernel
  have ha : IsName aDrv := ⟨by decide, by decide, by decide⟩
  have hr : Representable (bootTree [aDrv]) :=
    bootTree_representable (names_singleton ha) (by decide) (by decide)
  obtain ⟨p, u, -, -, hload, -⟩ := exists_loads
  have hmem : aDrv ∈ [aDrv] := List.mem_cons_self
  obtain ⟨f, hd⟩ := bootTree_driverDir (s := (System.freshKernel 16 64, fun _ => 0)) hmem hload
  obtain ⟨conf, hparse, hdesc⟩ := exists_drivesConf
  exact (driveTable_iff (fun _ => 0) hr (imageMem_mounted _ hlen)
    (Nat.lt_of_le_of_lt hlen (by decide)) bootTree_hasDir (.driver (by decide) hd .nil)
    bootTree_fsCfg hparse hdesc).mpr ⟨bootTree_reach, .inr ⟨by decide, by decide⟩⟩

/-- With a second driver every drive is entered twice. -/
theorem driveTable_doubled : Representable (bootTree [aDrv, bDrv]) ∧
    ∃ t conf s', Loads (bootTree [aDrv, bDrv]) System.bootStack [aDrv, bDrv]
        (System.freshKernel 16 64, fun _ => 0) t ∧
      HasFile (bootTree [aDrv, bDrv]) [etc, fsCfg] (Config.text drivesConf) ∧
      Config.parseSrc (Config.fresh (CStr.ofBuffer (Config.text drivesConf))) = .ok conf ∧
      VFS.Describes conf [someDrive] ∧
      init (imageMem (main (fun _ => 0) (bootTree [aDrv, bDrv])))
          ⟨0x100000, (main (fun _ => 0) (bootTree [aDrv, bDrv])).length, 0⟩ System.bootStack
          ⟨System.freshKernel 16 64, fun _ => 0, []⟩ = .ok s' ∧
        s'.driveEntries = [someDrive.entry, someDrive.entry] ∧
        ¬ VFS.Tabulates s'.driveEntries [someDrive] := by
  have hlen : (main (fun _ => 0) (bootTree [aDrv, bDrv])).length ≤ 2 ^ 31 := by decide +kernel
  have hr : Representable (bootTree [aDrv, bDrv]) := by
    refine bootTree_representable ?_ (by decide) (by decide)
    rintro n (_ | ⟨_, _ | ⟨_, ⟨⟩⟩⟩)
    · exact ⟨by decide, by decide, by decide⟩
    · exact ⟨by decide, by decide, by decide⟩
  obtain ⟨p, u, p', t, hfirst, hsecond⟩ := exists_loads
  have ha : aDrv ∈ [aDrv, bDrv] := List.mem_cons_self
  have hb : bDrv ∈ [aDrv, bDrv] := .tail _ List.mem_cons_self
  obtain ⟨f, hd⟩ := bootTree_driverDir (s := (System.freshKernel 16 64, fun _ => 0)) ha hfirst
  obtain ⟨f', hd'⟩ := bootTree_driverDir hb hsecond
  have hl : Loads (bootTree [aDrv, bDrv]) System.bootStack [aDrv, bDrv]
      (System.freshKernel 16 64, fun _ => 0) t :=
    .driver (by decide) hd (.driver (by decide) hd' .nil)
  have hnot : ¬ VFS.Tabulates [someDrive.entry, someDrive.entry] [someDrive] := by
    rw [VFS.Tabulates]
    decide
  obtain ⟨conf, hparse, hdesc⟩ := exists_drivesConf
  refine ⟨hr, t, conf, ?_⟩
  rcases init_cases (fun _ => 0) hr (imageMem_mounted _ hlen)
      (Nat.lt_of_le_of_lt hlen (by decide)) bootTree_hasDir hl bootTree_fsCfg hparse hdesc with
    ⟨hno, -⟩ | ⟨-, hinit⟩
  · exact absurd bootTree_reach hno
  · exact ⟨_, hl, bootTree_fsCfg, hparse, hdesc, hinit, rfl, hnot⟩

end InitRamFs

end RivOS
