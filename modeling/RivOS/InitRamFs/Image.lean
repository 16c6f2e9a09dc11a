import RivOS.InitRamFs.Genfs
import RivOS.Lib.CString

/-!
# InitRamFs — What an image holds

`Written img lo hi b d` says that the image has the tree `d` at the offsets of `b`, with the counts
of `b` cut to 16 bits: the list of its files, the list of its subdirectories, and behind every
entry of that one the subdirectory.  All files lie from `lo` to `hi`, those of a directory before
those of its subdirectories, and these one after the other.  `Stored img b d` is the same for counts
that fit, and without the places.

* `buildDir_written`: `buildDir` only appends (`prefix_buildDir`), and what it leaves behind is
  written, for every tree and as long as the buffer does not pass 4 GiB.
* `main_written`, `main_stored`: so is the whole tree in the image, behind the two headers.
-/

namespace RivOS

open Genfs

/-! ### Representable trees -/

/-- A name without a slash or a NUL. -/
structure IsName (n : Name) : Prop where
  ne_nil : n ≠ []
  slash : slash ∉ n
  nul : 0 ∉ n

/-- Names are names, siblings have different ones, and the counts fit into 16 bits. -/
inductive Representable : DirNode → Prop where
  | mk {n : Name} {files : List FileNode} {subdirs : List DirNode}
      (fileNames : ∀ f ∈ files, IsName f.name) (dirNames : ∀ d ∈ subdirs, IsName d.name)
      (distinct : (files.map (·.name) ++ subdirs.map (·.name)).Nodup)
      (fileCount : files.length < 2 ^ 16) (dirCount : subdirs.length < 2 ^ 16)
      (subs : ∀ d ∈ subdirs, Representable d) : Representable (.mk n files subdirs)

/-- A tree that a file system can hold, whatever its counts. -/
inductive Listable : DirNode → Prop where
  | mk {n : Name} {files : List FileNode} {subdirs : List DirNode}
      (fileNames : ∀ f ∈ files, IsName f.name) (dirNames : ∀ d ∈ subdirs, IsName d.name)
      (distinct : (files.map (·.name) ++ subdirs.map (·.name)).Nodup)
      (subs : ∀ d ∈ subdirs, Listable d) : Listable (.mk n files subdirs)

/-! ### Lists in an image -/

variable {img img' buf : List UInt8} {off : Nat} {files : List FileNode}
  {ps : List (Name × BuiltDir)} {junk : Nat → Nat}

/-- The file list at `off`, up to the end mark. -/
def FileList (img : List UInt8) : Nat → List FileNode → Prop
  | off, [] => At img off (toLE 4 0)
  | off, f :: fs => At img off (FileEntry.genf f.conts f.name) ∧
      FileList img (off + (FileEntry.genf f.conts f.name).length) fs

/-- The directory list at `off`, up to the end mark. -/
def DirList (img : List UInt8) : Nat → List (Name × BuiltDir) → Prop
  | off, [] => At img off (toLE 4 0)
  | off, p :: ps => ∃ flgs, At img off (DirEntry.withName p.1 p.2 flgs) ∧
      DirList img (off + (DirEntry.withName p.1 p.2 flgs).length) ps

theorem FileList.mono (hp : img <+: img') :
    ∀ {off fs}, FileList img off fs → FileList img' off fs
  | _, [], h => At.mono h hp
  | _, _ :: _, h => ⟨h.1.mono hp, h.2.mono hp⟩

theorem DirList.mono (hp : img <+: img') :
    ∀ {off ps}, DirList img off ps → DirList img' off ps
  | _, [], h => At.mono h hp
  | _, _ :: _, ⟨flgs, h, hs⟩ => ⟨flgs, h.mono hp, hs.mono hp⟩

theorem FileList.replace {pre pre' : List UInt8} (hlen : pre'.length = pre.length) :
    ∀ {off fs}, pre.length ≤ off → FileList (pre ++ img) off fs → FileList (pre' ++ img) off fs
  | _, [], ho, h => At.replace h hlen ho
  | _, _ :: _, ho, h => ⟨h.1.replace hlen ho, h.2.replace hlen (Nat.le_add_right_of_le ho)⟩

theorem DirList.replace {pre pre' : List UInt8} (hlen : pre'.length = pre.length) :
    ∀ {off ps}, pre.length ≤ off → DirList (pre ++ img) off ps → DirList (pre' ++ img) off ps
  | _, [], ho, h => At.replace h hlen ho
  | _, _ :: _, ho, ⟨flgs, h, hs⟩ =>
      ⟨flgs, h.replace hlen ho, hs.replace hlen (Nat.le_add_right_of_le ho)⟩

theorem prefix_pushFiles (buf : List UInt8) (fs : List FileNode) : buf <+: pushFiles buf fs := by
  induction fs generalizing buf with
  | nil => exact List.prefix_rfl
  | cons f fs ih => exact (List.prefix_append ..).trans (ih _)

theorem prefix_pushDirEntries (junk : Nat → Nat) (buf : List UInt8) (ps : List (Name × BuiltDir)) :
    buf <+: pushDirEntries junk buf ps := by
  induction ps generalizing buf with
  | nil => exact List.prefix_rfl
  | cons p ps ih => exact (List.prefix_append ..).trans (ih _)

/-- The files that `writeFileList` appends are the file list at its `fstart`. -/
theorem fileList_pushFiles (buf : List UInt8) (fs : List FileNode) :
    FileList (pushFiles buf fs ++ FileEntry.eof) buf.length fs := by
  induction fs generalizing buf with
  | nil => exact (at_append_iff.mp (at_end buf FileEntry.eof)).1
  | cons f fs ih =>
      refine ⟨(at_end buf _).mono ((prefix_pushFiles _ fs).trans (List.prefix_append ..)), ?_⟩
      rw [← List.length_append]
      exact ih _

theorem dirList_pushDirEntries (junk : Nat → Nat) (buf : List UInt8) (ps : List (Name × BuiltDir)) :
    DirList (pushDirEntries junk buf ps ++ DirEntry.eof) buf.length ps := by
  induction ps generalizing buf with
  | nil => exact at_end buf DirEntry.eof
  | cons p ps ih =>
      refine ⟨junk buf.length,
        (at_end buf _).mono ((prefix_pushDirEntries junk _ ps).trans (List.prefix_append ..)), ?_⟩
      rw [← List.length_append]
      exact ih _

/-- The parts of a file entry. -/
theorem at_genf_iff {conts : List UInt8} {fn : Name} :
    At img off (FileEntry.genf conts fn) ↔
      (At img off (toLE 4 fn.length) ∧ At img (off + 4) fn) ∧
        At img (off + (4 + fn.length)) (toLE 4 conts.length) ∧
          At img (off + (4 + fn.length) + 4) conts := by
  rw [FileEntry.genf, at_append_iff, at_append_iff, at_append_iff]
  simp [pushU32LE]

theorem length_genf (conts : List UInt8) (fn : Name) :
    (FileEntry.genf conts fn).length = 4 + fn.length + (4 + conts.length) := by
  simp [FileEntry.genf, pushU32LE, Nat.add_assoc]

/-- A list ends inside the image. -/
theorem le_of_fileList : ∀ {off files}, FileList img off files → off + 4 ≤ img.length
  | _, [], h => At.le h (by decide)
  | _, f :: _, h => by
      have := h.1.le (by simp [FileEntry.genf, pushU32LE, toLE])
      rw [length_genf] at this
      omega

/-- The parts of a directory entry. -/
theorem at_withName_iff {dn : Name} {b : BuiltDir} {flgs : Nat} :
    At img off (DirEntry.withName dn b flgs) ↔
      (At img off (toLE 4 dn.length) ∧ At img (off + 4) dn) ∧
        At img (off + (4 + dn.length)) (b.latter flgs) := by
  rw [DirEntry.withName, at_append_iff, at_append_iff]
  simp [pushU32LE]

theorem length_withName (dn : Name) (b : BuiltDir) (flgs : Nat) :
    (DirEntry.withName dn b flgs).length = 4 + dn.length + 16 := by
  simp [DirEntry.withName, BuiltDir.latter, filePositionHeader, pushU32LE, pushU16LE,
    Nat.add_assoc]

theorem le_of_withName {dn : Name} {b : BuiltDir} {flgs : Nat}
    (h : At img off (DirEntry.withName dn b flgs)) : off + (4 + dn.length + 16) ≤ img.length := by
  have := h.le (by simp [DirEntry.withName, pushU32LE, toLE])
  rwa [length_withName] at this

theorem le_of_dirList : ∀ {off ps}, DirList img off ps → off + 4 ≤ img.length
  | _, [], h => At.le h (by decide)
  | _, _ :: _, ⟨_, h, _⟩ => by
      have := le_of_withName h
      omega

/-- Where a file list that starts at `off` has its end mark. -/
def filesEnd : Nat → List FileNode → Nat
  | off, [] => off
  | off, f :: fs => filesEnd (off + (FileEntry.genf f.conts f.name).length) fs

theorem le_filesEnd : ∀ {off fs}, off ≤ filesEnd off fs
  | _, [] => Nat.le_refl _
  | _, _ :: _ => Nat.le_trans (Nat.le_add_right ..) le_filesEnd

theorem filesEnd_pushFiles (buf : List UInt8) (fs : List FileNode) :
    filesEnd buf.length fs = (pushFiles buf fs).length := by
  induction fs generalizing buf with
  | nil => rfl
  | cons f fs ih =>
      rw [filesEnd, pushFiles, ← ih, List.length_append]

/-! ### Trees in an image -/

/-- The image behind the headers. -/
def dataStart : Nat := headerSize + fphSize

mutual

def Written (img : List UInt8) (lo hi : Nat) (b : BuiltDir) : DirNode → Prop
  | .mk _ files subdirs =>
      (lo ≤ b.fstart ∧ FileList img b.fstart files ∧ b.fAm = files.length % 2 ^ 16) ∧
        lo ≤ b.dirstart ∧ b.dirHdrAm = subdirs.length % 2 ^ 16 ∧
          ∃ ps, DirList img b.dirstart ps ∧ WrittenAll img (filesEnd b.fstart files) hi ps subdirs

/-- The entries `ps` are of the directories `ds`, in order. -/
def WrittenAll (img : List UInt8) (lo hi : Nat) : List (Name × BuiltDir) → List DirNode → Prop
  | [], [] => lo ≤ hi
  | p :: ps, d :: ds =>
      p.1 = d.name ∧ ∃ mid, Written img lo mid p.2 d ∧ WrittenAll img mid hi ps ds
  | _, _ => False

end

mutual

def Stored (img : List UInt8) (b : BuiltDir) : DirNode → Prop
  | .mk _ files subdirs =>
      (dataStart ≤ b.fstart ∧ FileList img b.fstart files ∧ b.fAm = files.length) ∧
        dataStart ≤ b.dirstart ∧ b.dirHdrAm = subdirs.length ∧
          ∃ ps, DirList img b.dirstart ps ∧ StoredAll img ps subdirs

/-- The entries `ps` are of the directories `ds`, in order. -/
def StoredAll (img : List UInt8) : List (Name × BuiltDir) → List DirNode → Prop
  | [], [] => True
  | p :: ps, d :: ds => p.1 = d.name ∧ Stored img p.2 d ∧ StoredAll img ps ds
  | _, _ => False

end

variable {lo hi : Nat} {b : BuiltDir} {d : DirNode} {ds : List DirNode}

mutual

theorem Written.mono (hp : img <+: img') :
    ∀ {lo hi b d}, Written img lo hi b d → Written img' lo hi b d
  | _, _, _, .mk _ _ _, ⟨⟨ho, hfl, hf⟩, ho', hd, ps, hdl, hs⟩ =>
      ⟨⟨ho, hfl.mono hp, hf⟩, ho', hd, ps, hdl.mono hp, hs.mono hp⟩

theorem WrittenAll.mono (hp : img <+: img') :
    ∀ {lo hi ps ds}, WrittenAll img lo hi ps ds → WrittenAll img' lo hi ps ds
  | _, _, [], [], h => h
  | _, _, _ :: _, _ :: _, ⟨hn, mid, h, hs⟩ => ⟨hn, mid, h.mono hp, hs.mono hp⟩

end

theorem WrittenAll.mono_lo {lo' : Nat} (hlo : lo' ≤ lo) (h : WrittenAll img lo hi ps ds) :
    WrittenAll img lo' hi ps ds := by
  match ps, ds, h with
  | [], [], h => exact Nat.le_trans hlo h
  | p :: ps, .mk n files subdirs :: ds, ⟨hn, mid, ⟨⟨ho, hf⟩, ho', hd⟩, hs⟩ =>
      exact ⟨hn, mid, ⟨⟨Nat.le_trans hlo ho, hf⟩, Nat.le_trans hlo ho', hd⟩, hs⟩

mutual

theorem Written.le : ∀ {lo hi b d}, Written img lo hi b d → lo ≤ hi
  | _, _, _, .mk _ _ _, ⟨⟨ho, _⟩, _, _, _, _, hs⟩ =>
      Nat.le_trans ho (Nat.le_trans le_filesEnd hs.le)

theorem WrittenAll.le : ∀ {lo hi ps ds}, WrittenAll img lo hi ps ds → lo ≤ hi
  | _, _, [], [], h => h
  | _, _, _ :: _, _ :: _, ⟨_, _, h, hs⟩ => Nat.le_trans h.le hs.le

end

mutual

/-- Other headers do not touch what is written. -/
theorem Written.replace {pre pre' : List UInt8} (hlen : pre'.length = pre.length) :
    ∀ {lo hi b d}, pre.length ≤ lo → Written (pre ++ img) lo hi b d →
      Written (pre' ++ img) lo hi b d
  | _, _, _, .mk _ _ _, hpre, ⟨⟨ho, hfl, hf⟩, ho', hd, ps, hdl, hs⟩ =>
      ⟨⟨ho, hfl.replace hlen (Nat.le_trans hpre ho), hf⟩, ho', hd, ps,
        hdl.replace hlen (Nat.le_trans hpre ho'),
        hs.replace hlen (Nat.le_trans hpre (Nat.le_trans ho le_filesEnd))⟩

theorem WrittenAll.replace {pre pre' : List UInt8} (hlen : pre'.length = pre.length) :
    ∀ {lo hi ps ds}, pre.length ≤ lo → WrittenAll (pre ++ img) lo hi ps ds →
      WrittenAll (pre' ++ img) lo hi ps ds
  | _, _, [], [], _, h => h
  | _, _, _ :: _, _ :: _, hpre, ⟨hn, mid, h, hs⟩ =>
      ⟨hn, mid, h.replace hlen hpre, hs.replace hlen (Nat.le_trans hpre h.le)⟩

end

theorem WrittenAll.length_eq : ∀ {lo hi ps ds}, WrittenAll img lo hi ps ds → ps.length = ds.length
  | _, _, [], [], _ => rfl
  | _, _, _ :: _, _ :: _, ⟨_, _, _, hs⟩ => congrArg Nat.succ hs.length_eq

mutual

/-- Counts that fit are not cut. -/
theorem Written.stored : ∀ {lo hi b d}, dataStart ≤ lo → Representable d → Written img lo hi b d →
    Stored img b d
  | _, _, _, .mk _ _ _, hlo, .mk _ _ _ hf hd hr, ⟨⟨ho, hfl, hfn⟩, ho', hdn, ps, hdl, hs⟩ =>
      ⟨⟨Nat.le_trans hlo ho, hfl, hfn.trans (Nat.mod_eq_of_lt hf)⟩, Nat.le_trans hlo ho',
        hdn.trans (Nat.mod_eq_of_lt hd), ps, hdl,
        hs.stored (Nat.le_trans hlo (Nat.le_trans ho le_filesEnd)) hr⟩

theorem WrittenAll.stored : ∀ {lo hi ps ds}, dataStart ≤ lo → (∀ d ∈ ds, Representable d) →
    WrittenAll img lo hi ps ds → StoredAll img ps ds
  | _, _, [], [], _, _, _ => trivial
  | _, _, _ :: _, d :: _, hlo, hr, ⟨hn, _, h, hs⟩ =>
      ⟨hn, h.stored hlo (hr d List.mem_cons_self),
        hs.stored (Nat.le_trans hlo h.le) fun x hx => hr x (.tail d hx)⟩

end

/-! ### The writer -/

mutual

theorem prefix_buildDir (junk : Nat → Nat) (buf : List UInt8) : ∀ d, buf <+: (buildDir junk buf d).1
  | .mk _ files subdirs => by
      rw [buildDir]
      exact (prefix_pushFiles buf files).trans ((List.prefix_append ..).trans
        ((prefix_buildSubdirs _ _ subdirs).trans
          ((prefix_pushDirEntries _ _ _).trans (List.prefix_append ..))))

theorem prefix_buildSubdirs (junk : Nat → Nat) (buf : List UInt8) :
    ∀ ds, buf <+: (buildSubdirs junk buf ds).1
  | [] => List.prefix_rfl
  | d :: ds => by
      rw [buildSubdirs]
      exact (prefix_buildDir junk buf d).trans (prefix_buildSubdirs junk _ ds)

end

/-- The buffer of `buildDir` and `main` before the directory list: the files and all below. -/
def belowDir (junk : Nat → Nat) (buf : List UInt8) (files : List FileNode)
    (subdirs : List DirNode) : List UInt8 × List (Name × BuiltDir) :=
  buildSubdirs junk (writeFileList buf files).1 subdirs

theorem prefix_belowDir (junk : Nat → Nat) (buf : List UInt8) (files : List FileNode)
    (subdirs : List DirNode) :
    pushFiles buf files ++ FileEntry.eof <+: (belowDir junk buf files subdirs).1 :=
  prefix_buildSubdirs junk _ subdirs

/-- A directory is written once its list is, behind its files and subdirectories. -/
theorem closeDir_written {n : Name} {subdirs : List DirNode}
    (hlen : (belowDir junk buf files subdirs).1.length + 4 ≤ 2 ^ 32)
    (hs : WrittenAll (belowDir junk buf files subdirs).1
      (pushFiles buf files ++ FileEntry.eof).length (belowDir junk buf files subdirs).1.length
      (belowDir junk buf files subdirs).2 subdirs) :
    let closed := closeDir junk (belowDir junk buf files subdirs).1 (writeFileList buf files).2.1
      (writeFileList buf files).2.2 (belowDir junk buf files subdirs).2
    Written closed.1 buf.length (belowDir junk buf files subdirs).1.length closed.2
      (.mk n files subdirs) := by
  intro closed
  have hbelow := prefix_belowDir junk buf files subdirs
  have hle := ((prefix_pushFiles buf files).trans
    ((List.prefix_append _ FileEntry.eof).trans hbelow)).length_le
  have hclosed : (belowDir junk buf files subdirs).1 <+: closed.1 :=
    (prefix_pushDirEntries _ _ _).trans (List.prefix_append ..)
  have hfstart : closed.2.fstart = buf.length := Nat.mod_eq_of_lt (by omega)
  have hdirstart : closed.2.dirstart = (belowDir junk buf files subdirs).1.length :=
    Nat.mod_eq_of_lt (by omega)
  have hdirs : closed.2.dirHdrAm = subdirs.length % 2 ^ 16 := by
    rw [← hs.length_eq]
    rfl
  have hend : filesEnd closed.2.fstart files ≤ (pushFiles buf files ++ FileEntry.eof).length := by
    rw [hfstart, filesEnd_pushFiles]
    exact (List.prefix_append ..).length_le
  refine ⟨⟨Nat.le_of_eq hfstart.symm, ?_, rfl⟩, ?_, hdirs, _, ?_, (hs.mono hclosed).mono_lo hend⟩
  · rw [hfstart]
    exact (fileList_pushFiles buf files).mono (hbelow.trans hclosed)
  · rw [hdirstart]
    exact hle
  · rw [hdirstart]
    exact dirList_pushDirEntries _ _ _

/-- The list of a directory ends with its mark. -/
theorem length_closeDir (junk : Nat → Nat) (subs : List (Name × BuiltDir)) (n m : Nat) :
    buf.length + 4 ≤ (closeDir junk buf n m subs).1.length := by
  have := (prefix_pushDirEntries junk buf subs).length_le
  simp only [closeDir, DirEntry.eof, pushU32LE, List.length_append, length_toLE]
  omega

mutual

theorem buildDir_written (buf : List UInt8) : ∀ d, (buildDir junk buf d).1.length ≤ 2 ^ 32 →
    ∃ hi ≤ (buildDir junk buf d).1.length,
      Written (buildDir junk buf d).1 buf.length hi (buildDir junk buf d).2 d
  | .mk name files subdirs, hlen => by
      have hend : (belowDir junk buf files subdirs).1.length + 4 ≤
          (buildDir junk buf (.mk name files subdirs)).1.length := length_closeDir junk _ _ _
      have hlt := Nat.le_trans hend hlen
      exact ⟨_, Nat.le_trans (Nat.le_add_right ..) hend,
        closeDir_written hlt (buildSubdirs_written _ subdirs (Nat.le_of_add_right_le hlt))⟩

theorem buildSubdirs_written (buf : List UInt8) : ∀ ds,
    (buildSubdirs junk buf ds).1.length ≤ 2 ^ 32 →
      WrittenAll (buildSubdirs junk buf ds).1 buf.length (buildSubdirs junk buf ds).1.length
        (buildSubdirs junk buf ds).2 ds
  | [], _ => Nat.le_refl _
  | d :: ds, hlen => by
      have hlen' : (buildSubdirs junk (buildDir junk buf d).1 ds).1.length ≤ 2 ^ 32 := hlen
      have hp := prefix_buildSubdirs junk (buildDir junk buf d).1 ds
      obtain ⟨hi, hle, h⟩ := buildDir_written buf d (Nat.le_trans hp.length_le hlen')
      exact ⟨rfl, hi, h.mono hp, (buildSubdirs_written _ ds hlen').mono_lo hle⟩

end

/-! ### The image -/

/-- The headers, and the root behind them. -/
theorem main_written (junk : Nat → Nat) (root : DirNode)
    (hlen : (main junk root).length ≤ 2 ^ 32) :
    ∃ (b : BuiltDir) (hi : Nat), Written (main junk root) dataStart hi b root ∧
      At (main junk root) 0 (rivFsHeader fphSize headerSize [0, 0] 1) ∧
      At (main junk root) headerSize (b.latter 0) := by
  obtain ⟨n, files, subdirs⟩ := root
  let buf := List.replicate dataStart (0 : UInt8)
  let closed := closeDir junk (belowDir junk buf files subdirs).1 (writeFileList buf files).2.1
      (writeFileList buf files).2.2 (belowDir junk buf files subdirs).2
  have hp : buf <+: closed.1 := (prefix_pushFiles buf files).trans ((List.prefix_append ..).trans
    ((prefix_belowDir junk buf files subdirs).trans
      ((prefix_pushDirEntries _ _ _).trans (List.prefix_append ..))))
  obtain ⟨rest, hrest⟩ := hp
  let hdr := rivFsHeader fphSize headerSize [0, 0] 1 ++ closed.2.latter 0
  have hmain : main junk (.mk n files subdirs) = hdr ++ rest := by
    have : main junk (.mk n files subdirs) = hdr ++ closed.1.drop buf.length := by
      rw [List.length_replicate]
      rfl
    rw [this, ← hrest, List.drop_left]
  -- the header is written over the bytes that were kept for it at the front
  have hdrlen : hdr.length = buf.length := by
    simp [hdr, buf, rivFsHeader, BuiltDir.latter, filePositionHeader, pushU32LE, pushU16LE, MAGIC,
      dataStart, headerSize, fphSize]
  have hclosedlen : closed.1.length ≤ 2 ^ 32 := by
    rw [← hrest, List.length_append, ← hdrlen, ← List.length_append, ← hmain]
    exact hlen
  have hlt : (belowDir junk buf files subdirs).1.length + 4 ≤ 2 ^ 32 :=
    Nat.le_trans (length_closeDir junk _ _ _) hclosedlen
  have hw := closeDir_written (n := n) hlt
    (buildSubdirs_written _ subdirs (Nat.le_of_add_right_le hlt))
  refine ⟨closed.2, (belowDir junk buf files subdirs).1.length, ?_, ?_, ?_⟩
  · have hw' : Written closed.1 dataStart (belowDir junk buf files subdirs).1.length closed.2
        (.mk n files subdirs) := by
      rw [List.length_replicate] at hw
      exact hw
    rw [hmain]
    rw [← hrest] at hw'
    exact hw'.replace hdrlen (by simp [buf])
  · rw [hmain]
    exact ⟨closed.2.latter 0 ++ rest, by simp [hdr]⟩
  · rw [hmain]
    have := at_end (rivFsHeader fphSize headerSize [0, 0] 1) (closed.2.latter 0)
    exact At.mono this (List.prefix_append _ rest)

theorem main_stored {root : DirNode} (hr : Representable root)
    (hlen : (main junk root).length < 2 ^ 32) :
    ∃ b : BuiltDir, Stored (main junk root) b root ∧
      At (main junk root) 0 (rivFsHeader fphSize headerSize [0, 0] 1) ∧
      At (main junk root) headerSize (b.latter 0) := by
  obtain ⟨b, hi, hw, hhdr, hfph⟩ := main_written junk root (Nat.le_of_lt hlen)
  exact ⟨b, hw.stored (Nat.le_refl _) hr, hhdr, hfph⟩

end RivOS
