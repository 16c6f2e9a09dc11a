import Mathlib.Data.List.Forall2
import RivOS.InitRamFs.Lookup
import RivOS.InitRamFs.Parsed

/-!
# InitRamFs — The Python reader inverts the writer

Where `find` gets to in a parsed image.  It takes the first entry, on every level, whose decoded
name is the part of the path (`readAs`, on the tree), and `EntryOf` says which entry of the parsed
tree belongs to a file of the tree (`findIn_parsed`).

* `init_roundtrip`: an image of a tree with well-formed names is read without a warning, the tree
  and its contents are read back, and `find` finds the files and nothing else.
-/

namespace RivOS

universe u

/-- Two lists that agree about a test, element by element, first meet it at the same place. -/
theorem find_zip {α β : Type u} {as : List α} {bs : List β} {p : α → Bool} {q : β → Bool}
    (h : List.Forall₂ (fun a b => p a = q b) as bs) :
    (as.find? p = none ∧ bs.find? q = none) ∨
      ∃ a b, as.find? p = some a ∧ bs.find? q = some b ∧ (a, b) ∈ as.zip bs := by
  induction h with
  | nil => exact .inl ⟨rfl, rfl⟩
  | @cons a b as bs hab _ ih =>
      cases hp : p a with
      | true =>
          exact .inr ⟨a, b, List.find?_cons_of_pos hp, List.find?_cons_of_pos (hab ▸ hp),
            List.mem_cons_self⟩
      | false =>
          have hp' : ¬ p a = true := by simp [hp]
          have hq' : ¬ q b = true := by simp [← hab, hp]
          rw [List.find?_cons_of_neg hp', List.find?_cons_of_neg hq']
          exact ih.imp_right fun ⟨a', b', ha, hb, hz⟩ => ⟨a', b', ha, hb, .tail _ hz⟩

/-! ### Names as text -/

/-- A name that is well-formed. -/
def IsUtf8 (n : Name) : Prop := ∃ s, utf8 s = n

theorem IsUtf8.utf8_decode {n : Name} (h : IsUtf8 n) : utf8 (decodeReplace n) = n := by
  obtain ⟨s, rfl⟩ := h
  rw [decodeReplace_utf8]

/-- All names below a directory are well-formed. -/
inductive Utf8Named : DirNode → Prop where
  | mk {n : Name} {files : List FileNode} {subdirs : List DirNode}
      (fileNames : ∀ f ∈ files, IsUtf8 f.name) (dirNames : ∀ d ∈ subdirs, IsUtf8 d.name)
      (subs : ∀ d ∈ subdirs, Utf8Named d) : Utf8Named (.mk n files subdirs)

theorem Utf8Named.sub {d s : DirNode} (h : Utf8Named d) (hs : s ∈ d.subdirs) : Utf8Named s := by
  obtain ⟨-, -, hsub⟩ := h
  exact hsub s hs

namespace RivFsData

/-- A part of a path. -/
structure IsPart (t : Str) : Prop where
  ne_nil : t ≠ []
  slash : '/' ∉ t

/-- `/t₁/…/tₖ`. -/
def strPath (ts : List Str) : Str := ts.flatMap fun t => '/' :: t

theorem splitOn_strPath {t : Str} {ts : List Str} (h : ∀ x ∈ t :: ts, IsPart x) :
    (t ++ strPath ts).splitOn '/' = t :: ts := by
  have ht := (h t List.mem_cons_self).slash
  induction ts generalizing t with
  | nil => simpa [strPath] using List.splitOn_eq_singleton ht
  | cons t' ts ih =>
      have hpath : strPath (t' :: ts) = '/' :: (t' ++ strPath ts) := by simp [strPath]
      have ht' := (h t' (by simp)).slash
      rw [hpath, List.splitOn_append_cons_self_of_not_mem ht,
        ih (fun x hx => h x (.tail t hx)) ht']

/-- The parts of a path are read back. -/
theorem parts_strPath {ts : List Str} (h : ∀ t ∈ ts, IsPart t) :
    RivFsImage.parts (strPath ts) = ts := by
  cases ts with
  | nil => rfl
  | cons t ts =>
      have hpath : strPath (t :: ts) = '/' :: (t ++ strPath ts) := by simp [strPath]
      rw [RivFsImage.parts, hpath, List.splitOn_cons_eq_if_modifyHead, if_pos (by simp),
        splitOn_strPath h, List.filter_cons_of_neg (by simp), List.filter_eq_self]
      intro t ht
      simpa using (h t ht).ne_nil

/-! ### Where a path leads -/

/-- The names of the entries that the parts lead to, where the first entry with the text of a part
is taken. -/
def readAs (d : DirNode) : List Str → Option (List Name)
  | [] => none
  | [t] => (d.files.find? fun f => decodeReplace f.name == t).map fun f => [f.name]
  | t :: t' :: ts => (d.subdirs.find? fun s => decodeReplace s.name == t).bind fun s =>
      (readAs s (t' :: ts)).map (s.name :: ·)

theorem findIn_cons {cur : DirEntry} {t t' : Str} {ts : List Str} :
    RivFsImage.findIn cur (t :: t' :: ts) =
      (cur.dirs.find? fun q => q.name == t).bind fun q => RivFsImage.findIn q (t' :: ts) := rfl

/-- `e` is the entry of the file that the names lead to. -/
inductive EntryOf : DirNode → DirEntry → List Name → FileEntry → Prop where
  | here {d : DirNode} {p : DirEntry} {f : FileNode} {e : FileEntry}
      (h : (f, e) ∈ d.files.zip p.files) : EntryOf d p [f.name] e
  | sub {d s : DirNode} {p q : DirEntry} {ns : List Name} {e : FileEntry}
      (h : (s, q) ∈ d.subdirs.zip p.dirs) (hs : EntryOf s q ns e) : EntryOf d p (s.name :: ns) e

variable {img : List UInt8} {lo hi off : Nat} {d : DirNode} {p : DirEntry} {files : List FileNode}
  {ns : List Name} {e : FileEntry} {i : RivFsImage}

theorem fileEntries_names : ∀ {off} (files : List FileNode), List.Forall₂
    (fun f e => e.name = decodeReplace f.name) files (fileEntries off files)
  | _, [] => .nil
  | _, _ :: files => .cons rfl (fileEntries_names files)

theorem ParsedAll.names : ∀ {lo hi off ds qs}, ParsedAll img lo hi off ds qs →
    List.Forall₂ (fun d q => q.name = decodeReplace d.name) ds qs
  | _, _, _, [], [], _ => .nil
  | _, _, _, _ :: _, _ :: _, ⟨⟨hname, _⟩, _, _, _, hs⟩ => .cons hname hs.names

theorem Parsed.mono_lo {lo' : Nat} (hlo : lo' ≤ lo) (h : Parsed img lo hi d p) :
    Parsed img lo' hi d p := by
  obtain ⟨n, files, subdirs⟩ := d
  exact ⟨h.1, ⟨Nat.le_trans hlo h.2.1.1, h.2.1.2⟩, h.2.2⟩

mutual

theorem Parsed.mono_hi {hi' : Nat} : ∀ {lo hi d p}, hi ≤ hi' → Parsed img lo hi d p →
    Parsed img lo hi' d p
  | _, _, .mk _ _ _, _, hhi, ⟨hc, hf, hs⟩ => ⟨hc, hf, hs.mono_hi hhi⟩

theorem ParsedAll.mono_hi {hi' : Nat} : ∀ {lo hi off ds qs}, hi ≤ hi' →
    ParsedAll img lo hi off ds qs → ParsedAll img lo hi' off ds qs
  | _, _, _, [], [], hhi, ⟨hlo, h⟩ => ⟨Nat.le_trans hlo hhi, h⟩
  | _, _, _, _ :: _, _ :: _, hhi, ⟨hn, ha, mid, hq, hqs⟩ =>
      ⟨hn, ha, mid, hq, hqs.mono_hi hhi⟩

end

mutual

theorem Parsed.le : ∀ {lo hi d p}, Parsed img lo hi d p → lo ≤ hi
  | _, _, .mk _ _ _, _, ⟨_, ⟨ho, _⟩, hs⟩ => Nat.le_trans ho (Nat.le_trans le_filesEnd hs.le)

theorem ParsedAll.le : ∀ {lo hi off ds qs}, ParsedAll img lo hi off ds qs → lo ≤ hi
  | _, _, _, [], [], ⟨h, _⟩ => h
  | _, _, _, _ :: _, _ :: _, ⟨_, _, _, hq, hqs⟩ => Nat.le_trans hq.le hqs.le

end

/-- A subdirectory that was entered is parsed. -/
theorem ParsedAll.mem : ∀ {lo hi off ds qs s q}, ParsedAll img lo hi off ds qs →
    (s, q) ∈ List.zip ds qs → Parsed img lo hi s q
  | lo, hi, _, d :: ds, q' :: qs, s, q, ⟨_, _, mid, hq, hqs⟩, hz => by
      rcases List.mem_cons.mp hz with he | hz
      · obtain ⟨rfl, rfl⟩ := Prod.mk.inj he
        exact hq.mono_hi hqs.le
      · exact (hqs.mem hz).mono_lo hq.le

theorem Parsed.sub {s : DirNode} {q : DirEntry} (h : Parsed img lo hi d p)
    (hz : (s, q) ∈ d.subdirs.zip p.dirs) : Parsed img lo hi s q := by
  obtain ⟨n, files, subdirs⟩ := d
  obtain ⟨-, ⟨hlo, -⟩, hs⟩ := h
  exact (hs.mem hz).mono_lo (Nat.le_trans hlo le_filesEnd)

/-- **`find` leads where the names, decoded, do.** -/
theorem findIn_parsed (ts : List Str) : ∀ {d p}, Parsed img lo hi d p →
    (readAs d ts = none ∧ RivFsImage.findIn p ts = none) ∨
      ∃ ns e, readAs d ts = some ns ∧ RivFsImage.findIn p ts = some e ∧ EntryOf d p ns e := by
  induction ts with
  | nil => exact fun _ => .inl ⟨rfl, rfl⟩
  | cons t ts ih =>
      intro d p h
      obtain ⟨n, files, subdirs⟩ := d
      have ⟨_, ⟨_, _, hfs⟩, hs⟩ := h
      cases ts with
      | nil =>
          have hnames : List.Forall₂ (fun f e => (decodeReplace f.name == t) = (e.name == t)) files
              p.files := hfs ▸ (fileEntries_names files).imp fun f e he => by rw [he]
          rcases find_zip hnames with ⟨hf, he⟩ | ⟨f, e, hf, he, hz⟩
          · exact .inl ⟨by rw [readAs, DirNode.files, hf]; rfl, by rw [RivFsImage.findIn, he]⟩
          · exact .inr ⟨[f.name], e, by rw [readAs, DirNode.files, hf]; rfl,
              by rw [RivFsImage.findIn, he], .here hz⟩
      | cons t' ts =>
          have hnames : List.Forall₂ (fun s q => (decodeReplace s.name == t) = (q.name == t))
              subdirs p.dirs := hs.names.imp fun s q he => by rw [he]
          rcases find_zip hnames with ⟨hd, hq⟩ | ⟨s, q, hd, hq, hz⟩
          · exact .inl ⟨by rw [readAs, DirNode.subdirs, hd]; rfl, by rw [findIn_cons, hq]; rfl⟩
          · have hread : readAs (.mk n files subdirs) (t :: t' :: ts) =
                (readAs s (t' :: ts)).map (s.name :: ·) := by
              rw [readAs, DirNode.subdirs, hd, Option.bind_some]
            rw [hread, findIn_cons, hq, Option.bind_some]
            rcases ih (h.sub hz) with ⟨hr, hn⟩ | ⟨ns, e, hr, hn, hent⟩
            · exact .inl ⟨by rw [hr]; rfl, hn⟩
            · exact .inr ⟨s.name :: ns, e, by rw [hr]; rfl, hn, .sub hz hent⟩

/-! ### Contents -/

/-- A file's entry is at the place of the file. -/
theorem fileEntries_zip : ∀ {off files f e}, FileList img off files →
    (f, e) ∈ List.zip files (fileEntries off files) →
      e = fileEntry e.offset f ∧ At img e.offset (Genfs.FileEntry.genf f.conts f.name) ∧
        off ≤ e.offset ∧ e.offset < filesEnd off files
  | off, g :: files, f, e, ⟨hg, hl⟩, hz => by
      have hlen := length_genf g.conts g.name
      have hend : off + (Genfs.FileEntry.genf g.conts g.name).length ≤
          filesEnd (off + (Genfs.FileEntry.genf g.conts g.name).length) files := le_filesEnd
      rcases List.mem_cons.mp hz with he | hz
      · obtain ⟨rfl, rfl⟩ := Prod.mk.inj he
        refine ⟨rfl, hg, Nat.le_refl _, ?_⟩
        rw [filesEnd]
        simp only [fileEntry]
        omega
      · obtain ⟨he, ha, hlo, hhi⟩ := fileEntries_zip hl hz
        exact ⟨he, ha, by omega, hhi⟩

/-- The content of the entry is that of the file. -/
theorem EntryOf.hasFile (h : EntryOf d p ns e) : ∀ {lo hi}, Parsed img lo hi d p →
    HasFile d ns (slice img e.contentOffset e.filesize) := by
  induction h with
  | @here d p f e hz =>
      intro lo hi hp
      obtain ⟨n, files, subdirs⟩ := d
      obtain ⟨-, ⟨-, hfl, hfs⟩, -⟩ := hp
      rw [hfs] at hz
      obtain ⟨he, ha, -⟩ := fileEntries_zip hfl hz
      have hconts : slice img e.contentOffset e.filesize = f.conts := by
        rw [he]
        exact slice_at (at_genf_iff.mp ha).2.2
      rw [hconts]
      exact .here (List.of_mem_zip hz).1
  | sub hz _ ih => exact fun hp => .sub (List.of_mem_zip hz).1 (ih (hp.sub hz))

/-- Well-formed names lead where they are spelled. -/
theorem readAs_utf8 (ts : List Str) : ∀ {d : DirNode}, Utf8Named d → Listable d →
    (readAs d ts = none ∧ ∀ conts, ¬ HasFile d (ts.map utf8) conts) ∨
      (readAs d ts = some (ts.map utf8) ∧ ∃ conts, HasFile d (ts.map utf8) conts) := by
  -- decoding is injective on these names, so the first entry that reads as a part is the one
  -- spelled like it
  induction ts with
  | nil => exact fun _ _ => .inl ⟨rfl, fun _ => not_hasFile_nil⟩
  | cons t ts ih =>
      intro d hu hl
      have hfu : ∀ f ∈ d.files, IsUtf8 f.name := by
        obtain ⟨hfu, -, -⟩ := hu
        exact hfu
      have hdu : ∀ s ∈ d.subdirs, IsUtf8 s.name := by
        obtain ⟨-, hdu, -⟩ := hu
        exact hdu
      cases ts with
      | nil =>
          rcases hf : d.files.find? fun f => decodeReplace f.name == t with _ | f
          · refine .inl ⟨by rw [readAs, hf]; rfl, fun conts h => ?_⟩
            obtain ⟨f, hmem, hn, -⟩ := hasFile_single_iff.mp h
            have := List.find?_eq_none.mp hf f hmem
            simp [hn, decodeReplace_utf8] at this
          · have hmem := List.mem_of_find?_eq_some hf
            have hname : decodeReplace f.name = t := by simpa using List.find?_some hf
            have hspell := (hfu f hmem).utf8_decode
            rw [hname] at hspell
            refine .inr ⟨by rw [readAs, hf, Option.map_some, ← hspell]; rfl, f.conts, ?_⟩
            rw [List.map_singleton, hspell]
            exact .here hmem
      | cons t' ts =>
          rcases hd : d.subdirs.find? fun s => decodeReplace s.name == t with _ | s
          · refine .inl ⟨by rw [readAs, hd]; rfl, fun conts h => ?_⟩
            obtain ⟨s, hmem, hn, -⟩ := hasFile_cons_iff.mp h
            have := List.find?_eq_none.mp hd s hmem
            simp [hn, decodeReplace_utf8] at this
          · have hmem := List.mem_of_find?_eq_some hd
            have hname : decodeReplace s.name = t := by simpa using List.find?_some hd
            have hspell := (hdu s hmem).utf8_decode
            rw [hname] at hspell
            have hread : readAs d (t :: t' :: ts) = (readAs s (t' :: ts)).map (s.name :: ·) := by
              rw [readAs, hd, Option.bind_some]
            rw [hread]
            rcases ih (hu.sub hmem) (hl.sub hmem) with ⟨hr, hno⟩ | ⟨hr, conts, hfile⟩
            · refine .inl ⟨by rw [hr]; rfl, fun conts h => ?_⟩
              obtain ⟨s', hmem', hn, h⟩ := hasFile_cons_iff.mp h
              obtain rfl := hl.dir_eq hmem' hmem (hn.trans hspell)
              exact hno conts h
            · refine .inr ⟨by rw [hr, Option.map_some, ← hspell]; rfl, conts, ?_⟩
              rw [List.map_cons, hspell]
              exact .sub hmem hfile

/-! ### The round trip -/

mutual

/-- The directory that an entry is read back as. -/
def readBack (i : RivFsImage) : DirEntry → DirNode
  | ⟨name, _, _, _, _, _, _, dirs, files⟩ =>
      .mk (utf8 name) (files.map fun e => ⟨utf8 e.name, i.readFileContent e⟩) (readBackAll i dirs)

def readBackAll (i : RivFsImage) : List DirEntry → List DirNode
  | [] => []
  | q :: qs => readBack i q :: readBackAll i qs

end

mutual

/-- The counts of an entry and of all below it are the numbers of entries found. -/
def CountsFound : DirEntry → Prop
  | ⟨_, _, dirhdrAm, fAm, _, _, _, dirs, files⟩ =>
      (dirhdrAm = dirs.length ∧ fAm = files.length) ∧ CountsFoundAll dirs

def CountsFoundAll : List DirEntry → Prop
  | [] => True
  | q :: qs => CountsFound q ∧ CountsFoundAll qs

end

theorem readBack_files : ∀ {off files}, FileList i.data off files →
    (∀ f ∈ files, IsUtf8 f.name) →
      (fileEntries off files).map (fun e => ⟨utf8 e.name, i.readFileContent e⟩) = files
  | _, [], _, _ => rfl
  | off, f :: files, ⟨hf, hl⟩, hu => by
      have hname : utf8 (fileEntry off f).name = f.name :=
        (hu f List.mem_cons_self).utf8_decode
      have hconts : i.readFileContent (fileEntry off f) = f.conts :=
        slice_at (at_genf_iff.mp hf).2.2
      rw [fileEntries, List.map_cons, hname, hconts,
        readBack_files hl fun g hg => hu g (.tail f hg)]

mutual

theorem readBack_parsed : ∀ {lo hi d p}, Parsed i.data lo hi d p → Utf8Named d →
    readBack i p = .mk (utf8 p.name) d.files d.subdirs
  | _, _, .mk _ files subdirs, ⟨name, _, _, _, _, fstart, _, dirs, _⟩, ⟨_, ⟨_, hfl, hfs⟩, hs⟩,
      .mk hf hd hsub => by
      obtain rfl : _ = fileEntries fstart files := hfs
      rw [readBack, readBack_files hfl hf,
        readBackAll_parsed hs fun d hd' => ⟨hd d hd', hsub d hd'⟩]
      rfl

theorem readBackAll_parsed : ∀ {lo hi off ds qs}, ParsedAll i.data lo hi off ds qs →
    (∀ d ∈ ds, IsUtf8 d.name ∧ Utf8Named d) → readBackAll i qs = ds
  | _, _, _, [], [], _, _ => rfl
  | _, _, _, .mk n files subdirs :: ds, q :: qs, ⟨⟨hname, _⟩, _, _, hq, hqs⟩, hu => by
      obtain ⟨hn, hd⟩ := hu _ List.mem_cons_self
      rw [readBackAll, readBack_parsed hq hd, hname, hn.utf8_decode,
        readBackAll_parsed hqs fun d hd => hu d (.tail _ hd)]
      rfl

end

mutual

theorem countsFound_parsed : ∀ {lo hi d p}, Parsed img lo hi d p → Representable d → CountsFound p
  | _, _, .mk _ _ _, ⟨_, _, _, _, _, _, _, _, _⟩, ⟨⟨hf, hd⟩, ⟨_, _, hfs⟩, hs⟩,
      .mk _ _ _ hf' hd' hsub => by
      have hlen := (congrArg List.length hfs).trans length_fileEntries
      exact ⟨⟨(hd.trans (Nat.mod_eq_of_lt hd')).trans hs.length_eq.symm,
        (hf.trans (Nat.mod_eq_of_lt hf')).trans hlen.symm⟩, countsFoundAll_parsed hs hsub⟩

theorem countsFoundAll_parsed : ∀ {lo hi off ds qs}, ParsedAll img lo hi off ds qs →
    (∀ d ∈ ds, Representable d) → CountsFoundAll qs
  | _, _, _, [], [], _, _ => trivial
  | _, _, _, d :: _, _ :: _, ⟨_, _, _, hq, hqs⟩, hr =>
      ⟨countsFound_parsed hq (hr d List.mem_cons_self),
        countsFoundAll_parsed hqs fun x hx => hr x (.tail d hx)⟩

end

/-- What `find` should give on the path `ts`: the entry of the file it names, or nothing. -/
def FindExact (i : RivFsImage) (root : DirNode) (ts : List Str) : Prop :=
  (i.find (strPath ts) = none ∧ ∀ conts, ¬ HasFile root (ts.map utf8) conts) ∨
    ∃ e, i.find (strPath ts) = some e ∧ EntryOf root i.root (ts.map utf8) e ∧
      HasFile root (ts.map utf8) (i.readFileContent e)

/-- **What `genfs` writes, `rivfsdata.py` reads.** -/
theorem init_roundtrip (junk : Nat → Nat) {root : DirNode} {frames : Nat} (hr : Representable root)
    (hu : Utf8Named root) (hlen : (Genfs.main junk root).length < 2 ^ 32)
    (hnest : nesting root < frames) :
    ∃ i, RivFsImage.init (Genfs.main junk root) frames = .ok (i, []) ∧
      readBack i i.root = .mk (utf8 ['/']) root.files root.subdirs ∧ CountsFound i.root ∧
        ∀ ts, (∀ t ∈ ts, IsPart t) → FindExact i root ts := by
  obtain ⟨hi, p, hp⟩ := exists_parsedImage junk root (Nat.le_of_lt hlen)
  obtain ⟨w, hinit, hw⟩ := init_parsed hp (Nat.le_of_lt hlen) hr.listable hnest
  rw [hw hr] at hinit
  refine ⟨_, hinit, ?_, countsFound_parsed hp.parsed hr, fun ts hts => ?_⟩
  · rw [← hp.name]
    exact readBack_parsed hp.parsed hu
  · have hfind : RivFsImage.find ⟨Genfs.main junk root, mainHeader, p⟩ (strPath ts) =
        RivFsImage.findIn p ts := by rw [RivFsImage.find, parts_strPath hts]
    rw [FindExact, hfind]
    rcases findIn_parsed ts hp.parsed with ⟨hread, hnone⟩ | ⟨ns, e, hread, hsome, hent⟩
    · rcases readAs_utf8 ts hu hr.listable with ⟨-, hno⟩ | ⟨hread', -⟩
      · exact .inl ⟨hnone, hno⟩
      · rw [hread] at hread'
        cases hread'
    · rcases readAs_utf8 ts hu hr.listable with ⟨hread', -⟩ | ⟨hread', -⟩
      · rw [hread] at hread'
        cases hread'
      · obtain rfl := Option.some.inj (hread.symm.trans hread')
        exact .inr ⟨e, hsome, hent, hent.hasFile hp.parsed⟩

theorem smallTree_utf8Named : Utf8Named RivFs.smallTree := by
  refine .mk ?_ ?_ ?_
  · rintro f (_ | ⟨_, ⟨⟩⟩)
    exact ⟨['a'], rfl⟩
  · rintro d (_ | ⟨_, ⟨⟩⟩)
    exact ⟨['d'], rfl⟩
  · rintro d (_ | ⟨_, ⟨⟩⟩)
    refine .mk ?_ nofun nofun
    rintro f (_ | ⟨_, ⟨⟩⟩)
    exact ⟨['b'], rfl⟩

/-- `/d/b` is found in the image of the small tree. -/
theorem init_roundtrip_small : ∃ i e,
    RivFsImage.init (Genfs.main (fun _ => 0) RivFs.smallTree) 1000 = .ok (i, []) ∧
      i.find ['/', 'd', '/', 'b'] = some e ∧ i.readFileContent e = [3] := by
  obtain ⟨i, hinit, -, -, hfind⟩ := init_roundtrip (fun _ => 0)
    RivFs.smallTree_representable smallTree_utf8Named (by rw [RivFs.length_smallTree]; decide)
    (by decide : nesting RivFs.smallTree < 1000)
  have hparts : ∀ t ∈ [['d'], ['b']], IsPart t := by
    rintro t (_ | ⟨_, _ | ⟨_, ⟨⟩⟩⟩)
    · exact ⟨by decide, by decide⟩
    · exact ⟨by decide, by decide⟩
  rcases hfind [['d'], ['b']] hparts with ⟨-, hno⟩ | ⟨e, he, -, hconts⟩
  · exact absurd RivFs.smallTree_hasFile (hno [3])
  · exact ⟨i, e, hinit, he,
      RivFs.smallTree_representable.hasFile_unique hconts RivFs.smallTree_hasFile⟩

end RivFsData
end RivOS
