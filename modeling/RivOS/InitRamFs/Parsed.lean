import RivOS.InitRamFs.Paths
import RivOS.InitRamFs.RivFsData

/-!
# InitRamFs — What the Python reader makes of an image

`Parsed img lo hi d p` says that `p` is the directory `d` as the reader enters it: the counts are
those of the image, and every entry, in order, has the name, the place and the size of its file or
directory.  It follows from what the writer leaves behind (`Written.parsed`), and it is what `_walk`
arrives at (`walk_parsed`), for every tree that is nested less deeply than calls fit.
-/

namespace RivOS.RivFsData

open Genfs

variable {data img bs : List UInt8} {off size k v frames : Nat} {n : List UInt8}

/-! ### Primitive readers -/

theorem checkBounds_eq_ok {u : Unit} :
    checkBounds data off size = .ok u ↔ off + size ≤ data.length := by
  rw [checkBounds]
  split
  · simp only [reduceCtorEq, false_iff]
    omega
  · simp only [true_iff]
    omega

theorem checkBounds_ok (h : off + size ≤ data.length) : checkBounds data off size = .ok () :=
  checkBounds_eq_ok.mpr h

theorem slice_at (h : At data off bs) : slice data off bs.length = bs :=
  (List.prefix_iff_eq_take.mp h).symm

theorem uint_at (ha : At data off (toLE k v)) (hk : 0 < k) (hv : v < 256 ^ k) :
    uint data k off = .ok v := by
  have hle := ha.le (List.ne_nil_of_length_pos (by rwa [length_toLE]))
  have hs := slice_at ha
  rw [length_toLE] at hle hs
  rw [uint, checkBounds_ok hle, ok_bind, hs, ofLE_toLE_of_lt hv]
  rfl

theorem u8_at (ha : At data off (toLE 1 v)) (hv : v < 2 ^ 8) : u8 data off = .ok v :=
  uint_at ha (by decide) hv

theorem u16_at (ha : At data off (toLE 2 v)) (hv : v < 2 ^ 16) : u16 data off = .ok v :=
  uint_at ha (by decide) hv

theorem u32_at (ha : At data off (toLE 4 v)) (hv : v < 2 ^ 32) : u32 data off = .ok v :=
  uint_at ha (by decide) hv

theorem le_of_uint (h : uint data size off = .ok v) : off + size ≤ data.length := by
  obtain ⟨_, h, -⟩ := bind_eq_ok.mp h
  exact checkBounds_eq_ok.mp h

theorem readName_at (ha : At data off (toLE 4 n.length)) (hn : At data (off + 4) n) (hne : n ≠ [])
    (hlt : n.length < 2 ^ 32) : readName data off = .ok (some n, off + 4 + n.length) := by
  have hpos : n.length ≠ 0 := fun e => hne (List.eq_nil_of_length_eq_zero e)
  rw [readName, u32_at ha hlt, ok_bind, if_neg hpos, checkBounds_ok (hn.le hne), ok_bind,
    slice_at hn]
  rfl

theorem readName_end (ha : At data off (toLE 4 0)) : readName data off = .ok (none, off + 4) := by
  rw [readName, u32_at ha (by decide), ok_bind, if_pos rfl]
  rfl

/-- A name that was read lies in the image, with its length before it. -/
theorem le_of_readName {after : Nat} (h : readName data off = .ok (some n, after)) :
    off + 4 ≤ after := by
  obtain ⟨len, hlen, h⟩ := bind_eq_ok.mp h
  split at h
  · cases h
  · obtain ⟨_, -, h⟩ := bind_eq_ok.mp h
    cases h
    omega

/-! ### Loops that end -/

theorem le_of_readDir {name : Str} {o : Nat} {p : DirEntry} (h : readDir data name o off = .ok p) :
    off + 16 ≤ data.length := by
  obtain ⟨_, -, h⟩ := bind_eq_ok.mp h
  obtain ⟨_, -, h⟩ := bind_eq_ok.mp h
  obtain ⟨_, -, h⟩ := bind_eq_ok.mp h
  obtain ⟨_, -, h⟩ := bind_eq_ok.mp h
  obtain ⟨_, hflags, -⟩ := bind_eq_ok.mp h
  have := le_of_uint hflags
  omega

/-- The loop over the files goes forward inside the image. -/
theorem fileTurn_shrinks : Shrinks (fileTurn data) (left data) := by
  rintro ⟨off, files⟩ ⟨off', files'⟩ h
  obtain ⟨⟨_ | name, after⟩, hname, h⟩ := bind_eq_ok.mp h
  · cases h
  · obtain ⟨filesize, hsize, h⟩ := bind_eq_ok.mp h
    obtain ⟨_, hconts, h⟩ := bind_eq_ok.mp h
    cases h
    have := le_of_readName hname
    have := checkBounds_eq_ok.mp hconts
    simp only [left]
    omega

/-- And so does the one over the subdirectories, whatever the calls in it do. -/
theorem dirTurn_shrinks {walk : DirEntry → Except Raised (DirEntry × List Warning)} :
    Shrinks (dirTurn data walk) (left data) := by
  rintro ⟨off, dirs, warnings⟩ ⟨off', dirs', warnings'⟩ h
  obtain ⟨⟨_ | name, after⟩, hname, h⟩ := bind_eq_ok.mp h
  · cases h
  · obtain ⟨sub, hsub, h⟩ := bind_eq_ok.mp h
    obtain ⟨⟨sub', more⟩, -, h⟩ := bind_eq_ok.mp h
    cases h
    have := le_of_readName hname
    have := le_of_readDir hsub
    simp only [left, FPH_FIXED_SIZE]
    omega

/-! ### Parsed directories -/

/-- The entry of the file `f` at `off`. -/
def fileEntry (off : Nat) (f : FileNode) : FileEntry :=
  ⟨decodeReplace f.name, off, f.conts.length, off + (4 + f.name.length) + 4⟩

def fileEntries : Nat → List FileNode → List FileEntry
  | _, [] => []
  | off, f :: fs => fileEntry off f :: fileEntries (off + (FileEntry.genf f.conts f.name).length) fs

/-- What the writer knows of a directory. -/
def DirEntry.built (p : DirEntry) : BuiltDir := ⟨p.dirstart, p.fstart, p.dirhdrAm, p.fAm⟩

/-- The entry before `_walk` has filled in its lists. -/
def DirEntry.unwalked (p : DirEntry) : DirEntry := { p with dirs := [], files := [] }

theorem DirEntry.filled_unwalked (p : DirEntry) :
    { p.unwalked with dirs := p.dirs, files := p.files } = p := by
  cases p
  rfl

mutual

def Parsed (img : List UInt8) (lo hi : Nat) : DirNode → DirEntry → Prop
  | .mk _ files subdirs, p =>
      (p.fAm = files.length % 2 ^ 16 ∧ p.dirhdrAm = subdirs.length % 2 ^ 16) ∧
        (lo ≤ p.fstart ∧ FileList img p.fstart files ∧ p.files = fileEntries p.fstart files) ∧
          ParsedAll img (filesEnd p.fstart files) hi p.dirstart subdirs p.dirs

/-- The entries `qs` are of the directories `ds`, whose list is at `off`. -/
def ParsedAll (img : List UInt8) (lo hi off : Nat) : List DirNode → List DirEntry → Prop
  | [], [] => lo ≤ hi ∧ At img off (toLE 4 0)
  | d :: ds, q :: qs =>
      (q.name = decodeReplace d.name ∧ q.offset = off) ∧
        (∃ flgs, q.flags = flgs % 2 ^ 32 ∧ At img off (DirEntry.withName d.name q.built flgs)) ∧
          ∃ mid, Parsed img lo mid d q ∧
            ParsedAll img mid hi (off + (4 + d.name.length + 16)) ds qs
  | _, _ => False

end

mutual

/-- What is written can be entered. -/
theorem parsed_of_written : ∀ {lo hi b d}, Written img lo hi b d →
    ∀ (name : Str) (offset flags : Nat), ∃ p : DirEntry, p.built = b ∧
      (p.name = name ∧ p.offset = offset ∧ p.flags = flags) ∧ Parsed img lo hi d p
  | _, _, b, .mk _ files _, ⟨⟨ho, hfl, hf⟩, _, hd, _, hdl, hs⟩, name, offset, flags => by
      obtain ⟨qs, hqs⟩ := parsedAll_of_written hs hdl
      exact ⟨⟨name, offset, b.dirHdrAm, b.fAm, b.dirstart, b.fstart, flags, qs,
        fileEntries b.fstart files⟩, rfl, ⟨rfl, rfl, rfl⟩, ⟨hf, hd⟩, ⟨ho, hfl, rfl⟩, hqs⟩

theorem parsedAll_of_written : ∀ {lo hi off ps ds}, WrittenAll img lo hi ps ds →
    DirList img off ps → ∃ qs, ParsedAll img lo hi off ds qs
  | _, _, _, [], [], h, hdl => ⟨[], h, hdl⟩
  | _, _, off, p :: _, d :: _, ⟨hn, mid, h, hs⟩, ⟨flgs, ha, hdl⟩ => by
      obtain ⟨q, hb, ⟨hname, hoff, hflags⟩, hq⟩ :=
        parsed_of_written h (decodeReplace d.name) off (flgs % 2 ^ 32)
      obtain ⟨n, b⟩ := p
      obtain rfl : n = d.name := hn
      rw [length_withName] at hdl
      obtain ⟨qs, hqs⟩ := parsedAll_of_written hs hdl
      exact ⟨q :: qs, ⟨hname, hoff⟩, ⟨flgs, hflags, hb ▸ ha⟩, mid, hq, hqs⟩

end

/-! ### Fields -/

variable {lo hi : Nat} {d : DirNode} {ds : List DirNode} {p q : DirEntry} {qs : List DirEntry}

theorem ParsedAll.le_length : ∀ {lo hi off ds qs}, ParsedAll img lo hi off ds qs →
    off + 4 ≤ img.length
  | _, _, _, [], [], ⟨_, h⟩ => At.le h (by decide)
  | _, _, _, _ :: _, _ :: _, ⟨_, ⟨_, _, h⟩, _⟩ => by
      have := le_of_withName h
      omega

/-- The fields fit their types. -/
theorem Parsed.fits (h : Parsed img lo hi d p) (hlen : img.length ≤ 2 ^ 32) :
    (p.dirhdrAm < 2 ^ 16 ∧ p.fAm < 2 ^ 16) ∧ p.dirstart < 2 ^ 32 ∧ p.fstart < 2 ^ 32 := by
  obtain ⟨n, files, subdirs⟩ := d
  obtain ⟨⟨hf, hd⟩, ⟨-, hfl, -⟩, hs⟩ := h
  have := le_of_fileList hfl
  have := hs.le_length
  exact ⟨⟨hd ▸ Nat.mod_lt _ (by decide), hf ▸ Nat.mod_lt _ (by decide)⟩, by omega, by omega⟩

/-- The fields of a directory are read back. -/
theorem readDir_at {name : Str} {o flgs : Nat} (hp : Parsed data lo hi d p)
    (hlen : data.length ≤ 2 ^ 32) (ha : At data off (p.built.latter flgs)) :
    readDir data name o off =
      .ok ⟨name, o, p.dirhdrAm, p.fAm, p.dirstart, p.fstart, flgs % 2 ^ 32, [], []⟩ := by
  obtain ⟨⟨hd, hf⟩, hds, hfs⟩ := hp.fits hlen
  have hmod : toLE 4 flgs = toLE 4 (flgs % 2 ^ 32) := (toLE_mod 4 flgs).symm
  simp only [BuiltDir.latter, filePositionHeader, DirEntry.built, at_append_iff, pushU16LE,
    pushU32LE, List.length_append, length_toLE, Nat.reduceAdd, hmod] at ha
  obtain ⟨⟨⟨⟨had, haf⟩, hads⟩, hafs⟩, haflgs⟩ := ha
  rw [readDir, u16_at had hd, ok_bind, u16_at haf hf, ok_bind, u32_at hads hds, ok_bind,
    u32_at hafs hfs, ok_bind, u32_at haflgs (Nat.mod_lt _ (by decide)), ok_bind]
  rfl

/-! ### `_walk` -/

mutual

/-- How many directories lie inside one another below this one. -/
def nesting : DirNode → Nat
  | .mk _ _ subdirs => nestingAll subdirs

def nestingAll : List DirNode → Nat
  | [] => 0
  | d :: ds => max (nesting d + 1) (nestingAll ds)

end

/-- A turn enters the file it has come to. -/
theorem fileTurn_entry {f : FileNode} (acc : List FileEntry) (hlen : data.length ≤ 2 ^ 32)
    (hf : At data off (FileEntry.genf f.conts f.name)) (hn : f.name ≠ [])
    (hend : off + (FileEntry.genf f.conts f.name).length ≤ data.length) :
    fileTurn data (off, acc) =
      .ok (.inl (off + (FileEntry.genf f.conts f.name).length, acc ++ [fileEntry off f])) := by
  obtain ⟨⟨hlenat, hname⟩, hclen, -⟩ := at_genf_iff.mp hf
  rw [length_genf] at hend ⊢
  rw [← Nat.add_assoc] at hclen
  have hnext : off + 4 + f.name.length + 4 + f.conts.length =
      off + (4 + f.name.length + (4 + f.conts.length)) := by omega
  have hentry : (⟨decodeReplace f.name, off, f.conts.length, off + 4 + f.name.length + 4⟩ :
      FileEntry) = fileEntry off f := by rw [fileEntry, Nat.add_assoc off]
  have hsize : u32 data (off + 4 + f.name.length) = .ok f.conts.length := u32_at hclen (by omega)
  have hbounds : checkBounds data (off + 4 + f.name.length + 4) f.conts.length = .ok () :=
    checkBounds_ok (by omega)
  rw [fileTurn, readName_at hlenat hname hn (by omega), ok_bind]
  simp only [hsize, hbounds, hentry, hnext, ok_bind]
  rfl

theorem fileLoop_spec (hlen : data.length ≤ 2 ^ 32) : ∀ {files off} (acc : List FileEntry),
    FileList data off files → (∀ f ∈ files, f.name ≠ []) →
      loop (fileTurn data) .endless (left data) (off, acc) = .ok (acc ++ fileEntries off files)
  | [], off, acc, hl, _ => by
      have hturn : fileTurn data (off, acc) = .ok (.inr acc) := by
        rw [fileTurn, readName_end hl, ok_bind]
        rfl
      rw [loop_leave hturn, fileEntries, List.append_nil]
  | f :: files, off, acc, ⟨hf, hl⟩, hn => by
      have hend := le_of_fileList hl
      have hturn := fileTurn_entry acc hlen hf (hn f List.mem_cons_self) (by omega)
      rw [loop_turn fileTurn_shrinks hturn,
        fileLoop_spec hlen _ hl fun g hg => hn g (.tail f hg), List.append_assoc]
      rfl

theorem length_fileEntries : ∀ {off files}, (fileEntries off files).length = files.length
  | _, [] => rfl
  | _, _ :: _ => congrArg Nat.succ length_fileEntries

theorem ParsedAll.length_eq : ∀ {lo hi off ds qs}, ParsedAll img lo hi off ds qs →
    qs.length = ds.length
  | _, _, _, [], [], _ => rfl
  | _, _, _, _ :: _, _ :: _, ⟨_, _, _, _, hs⟩ => congrArg Nat.succ hs.length_eq

/-- A turn enters the subdirectory it has come to, with what the call in it makes of it. -/
theorem dirTurn_entry {walk : DirEntry → Except Raised (DirEntry × List Warning)} {flgs : Nat}
    {w' : List Warning} (acc : List DirEntry) (w : List Warning) (hlen : data.length ≤ 2 ^ 32)
    (ha : At data off (DirEntry.withName d.name q.built flgs)) (hflags : q.flags = flgs % 2 ^ 32)
    (hname : q.name = decodeReplace d.name) (hoff : q.offset = off) (hn : d.name ≠ [])
    (hq : Parsed data lo hi d q) (hwalk : walk q.unwalked = .ok (q, w')) :
    dirTurn data walk (off, acc, w) =
      .ok (.inl (off + (4 + d.name.length + 16), acc ++ [q], w ++ w')) := by
  have hend := le_of_withName ha
  obtain ⟨⟨hlenat, hnameat⟩, hlatter⟩ := at_withName_iff.mp ha
  rw [← Nat.add_assoc] at hlatter
  have hread : readDir data (decodeReplace d.name) off (off + 4 + d.name.length) =
      .ok q.unwalked := by
    rw [readDir_at hq hlen hlatter, ← hname, ← hoff, ← hflags]
    rfl
  have hnext : off + 4 + d.name.length + FPH_FIXED_SIZE = off + (4 + d.name.length + 16) := by
    simp only [FPH_FIXED_SIZE]
    omega
  rw [dirTurn, readName_at hlenat hnameat hn (by omega), ok_bind]
  simp only [hread, hwalk, hnext, ok_bind]
  rfl

mutual

/-- **`_walk` arrives at the parsed directory**, and where the counts fit it warns of nothing. -/
theorem walk_parsed (hlen : data.length ≤ 2 ^ 32) : ∀ {d lo hi p frames},
    Parsed data lo hi d p → Listable d → nesting d < frames →
      ∃ w, walk data frames p.unwalked = .ok (p, w) ∧ (Representable d → w = [])
  | .mk n files subdirs, lo, hi, p, frames + 1, ⟨⟨hf, hd⟩, ⟨_, hfl, hfs⟩, hs⟩,
      .mk hfn hdn _ hsub, hnest => by
      have hfiles := fileLoop_spec hlen [] hfl fun f hf => (hfn f hf).ne_nil
      obtain ⟨w, hdirs, hw⟩ := dirLoop_parsed hlen hs (fun d hd => ⟨hdn d hd, hsub d hd⟩)
        (Nat.le_of_lt_succ hnest) []
        (if p.files.length ≠ p.fAm then [.fileCount p.name p.fAm p.files.length] else [])
      rw [List.nil_append, ← hfs] at hfiles
      rw [List.nil_append] at hdirs
      have hwalk : walk data (frames + 1) p.unwalked =
          .ok ({ p.unwalked with dirs := p.dirs, files := p.files },
            (if p.files.length ≠ p.fAm then [.fileCount p.name p.fAm p.files.length] else []) ++ w ++
              if p.dirs.length ≠ p.dirhdrAm then [.dirCount p.name p.dirhdrAm p.dirs.length]
              else []) := by
        rw [walk, show p.unwalked.fstart = p.fstart from rfl, hfiles, ok_bind]
        exact bind_eq_ok.mpr ⟨_, hdirs, rfl⟩
      rw [p.filled_unwalked] at hwalk
      refine ⟨_, hwalk, ?_⟩
      rintro ⟨_, _, _, hf', hd', hr⟩
      have hfAm : p.files.length = p.fAm := by
        rw [hfs, length_fileEntries, hf, Nat.mod_eq_of_lt hf']
      have hdirhdrAm : p.dirs.length = p.dirhdrAm := by
        rw [hs.length_eq, hd, Nat.mod_eq_of_lt hd']
      simp [hw hr, hfAm, hdirhdrAm]

theorem dirLoop_parsed (hlen : data.length ≤ 2 ^ 32) : ∀ {ds lo hi off qs frames},
    ParsedAll data lo hi off ds qs → (∀ d ∈ ds, IsName d.name ∧ Listable d) →
      nestingAll ds ≤ frames → ∀ (acc : List DirEntry) (w : List Warning),
        ∃ w', loop (dirTurn data (walk data frames)) .endless (left data) (off, acc, w) =
          .ok (acc ++ qs, w ++ w') ∧ ((∀ d ∈ ds, Representable d) → w' = [])
  | [], lo, hi, off, [], frames, ⟨_, hend⟩, _, _, acc, w => by
      have hturn : dirTurn data (walk data frames) (off, acc, w) = .ok (.inr (acc, w)) := by
        rw [dirTurn, readName_end hend, ok_bind]
        rfl
      exact ⟨[], by rw [loop_leave hturn, List.append_nil, List.append_nil], fun _ => rfl⟩
  | d :: ds, lo, hi, off, q :: qs, frames,
      ⟨⟨hname, hoff⟩, ⟨flgs, hflags, ha⟩, mid, hq, hqs⟩, hds, hnest, acc, w => by
      obtain ⟨hn, hl⟩ := hds d List.mem_cons_self
      have hnest' := Nat.max_le.mp hnest
      obtain ⟨w₁, hwalk, hw₁⟩ := walk_parsed hlen hq hl hnest'.1
      obtain ⟨w₂, hloop, hw₂⟩ := dirLoop_parsed hlen hqs (fun x hx => hds x (.tail d hx)) hnest'.2
        (acc ++ [q]) (w ++ w₁)
      have hturn := dirTurn_entry acc w hlen ha hflags hname hoff hn.ne_nil hq hwalk
      refine ⟨w₁ ++ w₂, ?_, fun hr => ?_⟩
      · rw [loop_turn dirTurn_shrinks hturn, hloop, List.append_assoc, List.append_assoc]
        rfl
      · rw [hw₁ (hr d List.mem_cons_self), hw₂ fun x hx => hr x (.tail d hx)]
        rfl

end

/-! ### The image -/

/-- The header that `main` writes. -/
def mainHeader : RivFsHeader := ⟨MAGIC, fphSize, headerSize, 0, 0, 1⟩

theorem parseHeader_main (h : At data 0 (rivFsHeader fphSize headerSize [0, 0] 1)) :
    parseHeader data = .ok (mainHeader, []) := by
  have hle : 19 ≤ data.length := by
    have := h.le (by simp [rivFsHeader, MAGIC])
    simpa [rivFsHeader, MAGIC, pushU32LE] using this
  have hvers : ([0, 0] : List UInt8) = toLE 1 0 ++ toLE 1 0 := rfl
  simp only [rivFsHeader, hvers, at_append_iff, pushU32LE, List.length_append, length_toLE,
    show MAGIC.length = 5 from rfl, Nat.reduceAdd] at h
  obtain ⟨⟨⟨⟨hmagic, hsize⟩, hpos⟩, hmajor, hminor⟩, hflags⟩ := h
  have hslice : slice data 0 5 = MAGIC := slice_at hmagic
  rw [parseHeader, if_neg (by omega)]
  simp only [hslice, u32_at hsize (by decide), u32_at hpos (by decide), u8_at hmajor (by decide),
    u8_at hminor (by decide), u32_at hflags (by decide), ok_bind, ne_eq, not_true_eq_false, if_false]
  rfl

/-- The root of an image, parsed, and what lies before it. -/
structure ParsedImage (img : List UInt8) (hi : Nat) (root : DirNode) (p : DirEntry) : Prop where
  parsed : Parsed img dataStart hi root p
  header : At img 0 (rivFsHeader fphSize headerSize [0, 0] 1)
  fph : At img headerSize (p.built.latter 0)
  dirstart : dataStart ≤ p.dirstart
  name : p.name = ['/']
  offset : p.offset = headerSize
  flags : p.flags = 0

theorem exists_parsedImage (junk : Nat → Nat) (root : DirNode)
    (hlen : (main junk root).length ≤ 2 ^ 32) :
    ∃ (hi : Nat) (p : DirEntry), ParsedImage (main junk root) hi root p := by
  obtain ⟨b, hi, hw, hhdr, hfph⟩ := main_written junk root hlen
  obtain ⟨p, rfl, ⟨hname, hoff, hflags⟩, hp⟩ := parsed_of_written hw ['/'] headerSize 0
  obtain ⟨n, files, subdirs⟩ := root
  exact ⟨hi, p, hp, hhdr, hfph, hw.2.1, hname, hoff, hflags⟩

/-- The reader makes of an image what is parsed of it. -/
theorem init_parsed {root : DirNode} (h : ParsedImage data hi root p)
    (hlen : data.length ≤ 2 ^ 32) (hl : Listable root) (hnest : nesting root < frames) :
    ∃ w, RivFsImage.init data frames = .ok (⟨data, mainHeader, p⟩, w) ∧
      (Representable root → w = []) := by
  obtain ⟨w, hwalk, hw⟩ := walk_parsed hlen h.parsed hl hnest
  have hread : readDir data ['/'] headerSize headerSize = .ok p.unwalked := by
    rw [readDir_at h.parsed hlen h.fph, ← h.name, ← h.offset, Nat.zero_mod, ← h.flags]
    rfl
  have hroot : parseRoot data frames mainHeader = .ok (p, w) := by
    rw [parseRoot]
    simp only [show mainHeader.fphPos = headerSize from rfl, hread, hwalk, ok_bind]
    rfl
  refine ⟨w, ?_, hw⟩
  rw [RivFsImage.init, parseHeader_main h.header]
  simp only [ok_bind, hroot]
  rfl

end RivOS.RivFsData
