import RivOS.InitRamFs.Lookup

/-!
# InitRamFs — Images that are not what `genfs` writes

What the reader needs of an image of any bytes.  `Field` and `Text` are numbers and names that lie in
the image; `FilesIn`, `DirsIn`, `SearchIn` and `WalkIn` follow the lists and the entries that a search
passes, each field of them inside the image.

* `findFile_isSome_iff`, `findDir_eq_some_iff`, `findInDir_isSome_iff`, `walkDirs_isSome_iff`: the
  loops of the reader stay in the image exactly along such lists.
* `inBounds_iff`: a call reads nothing outside of the image exactly if what it passes lies inside.
* `reads_beyond`: the check looks at no offset of a list, so that it accepts an image cut off behind
  its headers.
-/

namespace RivOS

variable {img bs : List UInt8} {base a k n v off : Nat}

/-! ### Memory that holds an image and nothing else -/

/-- The image is all that may be read. -/
def onlyMem (img : List UInt8) (base : Nat) : PMem := fun a =>
  if a < base then none else img[a - base]?

theorem onlyMem_loaded : Loaded (onlyMem img base) base img := by
  intro i b hb
  rwa [onlyMem, if_neg (Nat.not_lt.mpr (Nat.le_add_right ..)), Nat.add_sub_cancel_left]

/-- The bytes `bs` of the image are at the address `a`. -/
def Text (img : List UInt8) (base a : Nat) (bs : List UInt8) : Prop :=
  ∃ o, a = base + o ∧ At img o bs

/-- A number of `k` bytes of the image is at the address `a`. -/
def Field (img : List UInt8) (base k a v : Nat) : Prop :=
  Text img base a (toLE k v) ∧ v < 256 ^ k

theorem peek_onlyMem_iff (hn : 0 < n) :
    peek (onlyMem img base) a n = some bs ↔ bs.length = n ∧ Text img base a bs := by
  constructor
  · intro h
    obtain ⟨hlen, hget⟩ := peek_eq_some h
    have hbase : base ≤ a := by
      by_contra hlt
      have hzero := hget 0 (by omega)
      rw [onlyMem, if_pos (by omega)] at hzero
      cases hzero
    refine ⟨hlen, a - base, by omega, List.prefix_iff_getElem?.mpr fun i hi => ?_⟩
    have hi' := hget i hi
    rw [onlyMem, if_neg (by omega)] at hi'
    rw [List.getElem?_drop, ← hi']
    congr 1
    omega
  · rintro ⟨rfl, o, rfl, ha⟩
    exact (onlyMem_loaded.at ha).peek

theorem peekLE_onlyMem_iff (hk : 0 < k) :
    peekLE (onlyMem img base) k a = some v ↔ Field img base k a v := by
  constructor
  · intro h
    obtain ⟨bs, hpeek, rfl⟩ := Option.map_eq_some_iff.mp h
    obtain ⟨rfl, htext⟩ := (peek_onlyMem_iff hk).mp hpeek
    exact ⟨by rwa [toLE_ofLE], ofLE_lt⟩
  · rintro ⟨htext, hv⟩
    have hpeek := (peek_onlyMem_iff hk).mpr ⟨length_toLE k v, htext⟩
    rw [peekLE, hpeek, Option.map_some, ofLE_toLE_of_lt hv]

/-- The bytes at `a` differ from `bs`, for the first time in the image. -/
def Differs (img : List UInt8) (base a : Nat) (bs : List UInt8) : Prop :=
  ∃ pre c b post, bs = pre ++ b :: post ∧ Text img base a (pre ++ [c]) ∧ c ≠ b

theorem onlyMem_eq_some_iff {b : UInt8} :
    onlyMem img base a = some b ↔ Text img base a [b] := by
  have h : peek (onlyMem img base) a 1 = some [b] ↔ onlyMem img base a = some b := by
    cases ho : onlyMem img base a <;> simp [peek, ho]
  rw [← h, peek_onlyMem_iff (by decide)]
  exact and_iff_right rfl

theorem text_cons_iff {b : UInt8} :
    Text img base a (b :: bs) ↔ onlyMem img base a = some b ∧ Text img base (a + 1) bs := by
  rw [onlyMem_eq_some_iff]
  constructor
  · rintro ⟨o, rfl, ha⟩
    obtain ⟨hb, hbs⟩ := at_append_iff.mp (show At img o ([b] ++ bs) from ha)
    exact ⟨⟨o, rfl, hb⟩, o + 1, Nat.add_assoc .., hbs⟩
  · rintro ⟨⟨o, rfl, hb⟩, o', ho, hbs⟩
    obtain rfl : o' = o + 1 := by omega
    exact ⟨o, rfl, at_append_iff.mpr ⟨hb, hbs⟩⟩

theorem peekEq_true_iff :
    peekEq (onlyMem img base) a bs = some true ↔ bs = [] ∨ Text img base a bs := by
  induction bs generalizing a with
  | nil => simp [peekEq]
  | cons b bs ih =>
      rw [peekEq, text_cons_iff, Option.bind_eq_bind, Option.bind_eq_some_iff]
      constructor
      · rintro ⟨c, hc, h⟩
        split at h
        · rename_i hcb
          subst hcb
          refine .inr ⟨hc, ?_⟩
          rcases ih.mp h with rfl | htext
          · obtain ⟨o, rfl, -⟩ := onlyMem_eq_some_iff.mp hc
            exact ⟨o + 1, Nat.add_assoc .., List.nil_prefix⟩
          · exact htext
        · cases h
      · rintro (h | ⟨hb, htext⟩)
        · cases h
        · exact ⟨b, hb, by rw [if_pos rfl]; exact ih.mpr (.inr htext)⟩

theorem peekEq_false_iff :
    peekEq (onlyMem img base) a bs = some false ↔ Differs img base a bs := by
  induction bs generalizing a with
  | nil => simp [peekEq, Differs]
  | cons b bs ih =>
      rw [peekEq, Option.bind_eq_bind, Option.bind_eq_some_iff]
      constructor
      · rintro ⟨c, hc, h⟩
        split at h
        · rename_i hcb
          subst hcb
          obtain ⟨pre, d, e, post, rfl, htext, hne⟩ := ih.mp h
          exact ⟨c :: pre, d, e, post, rfl, text_cons_iff.mpr ⟨hc, htext⟩, hne⟩
        · rename_i hcb
          exact ⟨[], c, b, bs, rfl, onlyMem_eq_some_iff.mp hc, hcb⟩
      · rintro ⟨pre, c, d, post, he, htext, hne⟩
        cases pre with
        | nil =>
            obtain ⟨rfl, rfl⟩ := List.cons.inj he
            exact ⟨c, (text_cons_iff.mp htext).1, if_neg hne⟩
        | cons x pre =>
            obtain ⟨rfl, rfl⟩ := List.cons.inj he
            obtain ⟨hx, htext⟩ := text_cons_iff.mp htext
            exact ⟨b, hx, by rw [if_pos rfl]; exact ih.mpr ⟨pre, c, d, post, rfl, htext, hne⟩⟩

namespace RivFs

variable {fs fs' : RivFs} {mem : PMem} {needed : Name} {len : Nat} {r : Option Nat}

/-! ### Lists -/

/-- A name of length `len` at `a` is not `needed`, which takes a look at it if the lengths agree. -/
def OtherName (img : List UInt8) (base a len : Nat) (needed : Name) : Prop :=
  len = needed.length → Differs img base a needed

theorem nameIs_true_iff : nameIs (onlyMem img base) a len needed = some true ↔
    len = needed.length ∧ (needed = [] ∨ Text img base a needed) := by
  rw [nameIs]
  split
  · rename_i hlen
    rw [peekEq_true_iff, and_iff_right hlen]
  · rename_i hlen
    exact iff_of_false (by decide) fun h => hlen h.1

theorem nameIs_false_iff : nameIs (onlyMem img base) a len needed = some false ↔
    OtherName img base a len needed := by
  rw [nameIs, OtherName]
  split
  · rename_i hlen
    rw [peekEq_false_iff, forall_prop_of_true hlen]
  · rename_i hlen
    exact iff_of_true rfl fun h => absurd h hlen

/-- Where the name of an entry at `a` is. -/
def namePos (a : Nat) : Nat := wrap (a + 4)

/-- What follows a name of length `len`. -/
def behind (a len : Nat) : Nat := wrap (namePos a + len)

variable (img base) in
/-- In a list of files at `a`, up to the file `needed` or to the end of the list, which comes after
`n` files at most: all that tells where the next file is lies in the image. -/
inductive FilesIn (needed : Name) : Nat → Nat → Prop where
  | done {a : Nat} : FilesIn needed 0 a
  | eof {n a : Nat} (h : Field img base 4 a 0) : FilesIn needed (n + 1) a
  | found {n a : Nat} (h : Field img base 4 a needed.length) (hne : needed ≠ [])
      (ht : Text img base (namePos a) needed) : FilesIn needed (n + 1) a
  | next {n a len contsLen : Nat} (h : Field img base 4 a len) (hne : len ≠ 0)
      (hother : OtherName img base (namePos a) len needed)
      (hc : Field img base 4 (behind a len) contsLen)
      (hs : FilesIn needed n (wrap (wrap (behind a len + 4) + contsLen))) :
      FilesIn needed (n + 1) a

variable (img base) in
/-- The same for a list of directories, and the entry of `needed`. -/
inductive DirsIn (needed : Name) : Nat → Nat → Option Nat → Prop where
  | done {a : Nat} : DirsIn needed 0 a none
  | eof {n a : Nat} (h : Field img base 4 a 0) : DirsIn needed (n + 1) a none
  | found {n a : Nat} (h : Field img base 4 a needed.length) (hne : needed ≠ [])
      (ht : Text img base (namePos a) needed) : DirsIn needed (n + 1) a (some a)
  | next {n a len : Nat} {r : Option Nat} (h : Field img base 4 a len) (hne : len ≠ 0)
      (hother : OtherName img base (namePos a) len needed)
      (hs : DirsIn needed n (wrap (behind a len + sizeofFph)) r) : DirsIn needed (n + 1) a r

theorem u32At_iff : u32At (onlyMem img base) a = some v ↔ Field img base 4 a v :=
  peekLE_onlyMem_iff (by decide)

theorem u16At_iff : u16At (onlyMem img base) a = some v ↔ Field img base 2 a v :=
  peekLE_onlyMem_iff (by decide)

/-- What both loops do with the entry at `a`: at the end `x`, at `needed` as `found` says, and
otherwise as `next` does. -/
theorem entry_iff {β : Type} {x y : β} {found next : Nat → Option β} :
    ((u32At (onlyMem img base) a).bind fun len =>
        if len = 0 then some x
        else (nameIs (onlyMem img base) (namePos a) len needed).bind fun same =>
          if same then found len else next len) = some y ↔
      (Field img base 4 a 0 ∧ x = y) ∨
        (Field img base 4 a needed.length ∧ needed ≠ [] ∧ Text img base (namePos a) needed ∧
          found needed.length = some y) ∨
        ∃ len, Field img base 4 a len ∧ len ≠ 0 ∧ OtherName img base (namePos a) len needed ∧
          next len = some y := by
  rw [Option.bind_eq_some_iff]
  constructor
  · rintro ⟨len, hlen, h⟩
    have hlen := u32At_iff.mp hlen
    split at h
    · rename_i hzero
      exact .inl ⟨hzero ▸ hlen, Option.some.inj h⟩
    · rename_i hne
      obtain ⟨same, hsame, h⟩ := Option.bind_eq_some_iff.mp h
      cases same with
      | true =>
          obtain ⟨rfl, hempty | htext⟩ := nameIs_true_iff.mp hsame
          · exact absurd (congrArg List.length hempty) hne
          · exact .inr (.inl ⟨hlen, fun he => hne (congrArg List.length he), htext, h⟩)
      | false => exact .inr (.inr ⟨len, hlen, hne, nameIs_false_iff.mp hsame, h⟩)
  · rintro (⟨hlen, rfl⟩ | ⟨hlen, hne, htext, h⟩ | ⟨len, hlen, hne, hother, h⟩)
    · exact ⟨0, u32At_iff.mpr hlen, rfl⟩
    · refine ⟨_, u32At_iff.mpr hlen, ?_⟩
      rw [if_neg fun he => hne (List.eq_nil_of_length_eq_zero he)]
      exact Option.bind_eq_some_iff.mpr ⟨true, nameIs_true_iff.mpr ⟨rfl, .inr htext⟩, h⟩
    · refine ⟨_, u32At_iff.mpr hlen, ?_⟩
      rw [if_neg hne]
      exact Option.bind_eq_some_iff.mpr ⟨false, nameIs_false_iff.mpr hother, h⟩

theorem findFile_isSome_iff :
    (findFile (onlyMem img base) needed n a).isSome ↔ FilesIn img base needed n a := by
  rw [Option.isSome_iff_exists]
  constructor
  · rintro ⟨r, h⟩
    induction n generalizing a with
    | zero => exact .done
    | succ n ih =>
        rcases entry_iff.mp h with ⟨hlen, -⟩ | ⟨hlen, hne, htext, -⟩ | ⟨len, hlen, hne, hother, h⟩
        · exact .eof hlen
        · exact .found hlen hne htext
        · obtain ⟨contsLen, hconts, h⟩ := Option.bind_eq_some_iff.mp h
          exact .next hlen hne hother (u32At_iff.mp hconts) (ih h)
  · intro h
    induction h with
    | done => exact ⟨_, rfl⟩
    | eof h => exact ⟨none, entry_iff.mpr (.inl ⟨h, rfl⟩)⟩
    | @found n a h hne ht =>
        exact ⟨some ⟨a, behind a needed.length⟩, entry_iff.mpr (.inr (.inl ⟨h, hne, ht, rfl⟩))⟩
    | next h hne hother hc hs ih =>
        obtain ⟨r, hr⟩ := ih
        refine ⟨r, entry_iff.mpr (.inr (.inr ⟨_, h, hne, hother, ?_⟩))⟩
        exact Option.bind_eq_some_iff.mpr ⟨_, u32At_iff.mpr hc, hr⟩

theorem findDir_eq_some_iff :
    findDir (onlyMem img base) needed n a = some r ↔ DirsIn img base needed n a r := by
  constructor
  · intro h
    induction n generalizing a with
    | zero =>
        cases h
        exact .done
    | succ n ih =>
        rcases entry_iff.mp h with ⟨hlen, rfl⟩ | ⟨hlen, hne, htext, h⟩ |
          ⟨len, hlen, hne, hother, h⟩
        · exact .eof hlen
        · cases h
          exact .found hlen hne htext
        · exact .next hlen hne hother (ih h)
  · intro h
    induction h with
    | done => rfl
    | eof h => exact entry_iff.mpr (.inl ⟨h, rfl⟩)
    | found h hne ht => exact entry_iff.mpr (.inr (.inl ⟨h, hne, ht, rfl⟩))
    | next h hne hother hs ih => exact entry_iff.mpr (.inr (.inr ⟨_, h, hne, hother, ih⟩))

/-! ### Down a path -/

/-- Where the first name of a view ends. -/
def PathView.nameLen (fn : PathView) : Nat :=
  if findChar (fn.raw.take fn.len) slash != 0 then findChar (fn.raw.take fn.len) slash else fn.len

def PathView.name (fn : PathView) : Name := fn.raw.take fn.nameLen

/-- The view behind the first name and its slash. -/
def PathView.rest (fn : PathView) : PathView :=
  ⟨fn.raw.drop (fn.nameLen + 1), fn.len - (fn.nameLen + 1)⟩

/-- The first name is looked up among the files. -/
def PathView.isFile (fn : PathView) (isDir : Bool) : Bool :=
  !(findChar (fn.raw.take fn.len) slash != 0) && !isDir

/-- `isDir` for the rest of a path. -/
def PathView.hasSlash (fn : PathView) : Bool := findChar fn.raw slash != 0

variable {entry dirCount : Nat} {fn : PathView} {isDir : Bool} {cs : List UInt8}

theorem findInDir_eq : findInDir mem fs entry fn isDir =
    (latterOf mem entry).bind fun latter =>
      if fn.isFile isDir then
        (fstart mem latter).bind fun st => (fAm mem latter).bind fun n =>
          findFile mem fn.name n (wrap (fs.rawFsMemloc + st))
      else
        (dirstart mem latter).bind fun st => (dirHdrAm mem latter).bind fun n =>
          (findDir mem fn.name n (wrap (fs.rawFsMemloc + st))).bind fun
            | none => some none
            | some child =>
                if fn.len ≤ fn.nameLen + 1 then some none
                else findInDir mem fs child fn.rest fn.rest.hasSlash := by
  rw [findInDir]
  simp only [PathView.isFile, PathView.hasSlash, PathView.rest, PathView.name, PathView.nameLen,
    Option.bind_eq_bind, dite_eq_ite]
  rfl

variable (img fs) in
/-- From the entry of a directory down the rest of a path: what tells where its lists are lies in the
image, and so do the lists as far as they are searched. -/
inductive SearchIn : Nat → PathView → Bool → Prop where
  | file {entry len st n : Nat} {fn : PathView} {isDir : Bool} (hfile : fn.isFile isDir = true)
      (h : Field img fs.rawFsMemloc 4 entry len)
      (hst : Field img fs.rawFsMemloc 4 (wrap (behind entry len + 8)) st)
      (hn : Field img fs.rawFsMemloc 2 (wrap (behind entry len + 2)) n)
      (hs : FilesIn img fs.rawFsMemloc fn.name n (wrap (fs.rawFsMemloc + st))) :
      SearchIn entry fn isDir
  | dir {entry len st n : Nat} {fn : PathView} {isDir : Bool} {r : Option Nat}
      (hdir : fn.isFile isDir = false) (h : Field img fs.rawFsMemloc 4 entry len)
      (hst : Field img fs.rawFsMemloc 4 (wrap (behind entry len + 4)) st)
      (hn : Field img fs.rawFsMemloc 2 (behind entry len) n)
      (hs : DirsIn img fs.rawFsMemloc fn.name n (wrap (fs.rawFsMemloc + st)) r)
      (hr : ∀ child, r = some child → fn.nameLen + 1 < fn.len →
        SearchIn child fn.rest fn.rest.hasSlash) :
      SearchIn entry fn isDir

theorem latterOf_iff {l : Nat} : latterOf (onlyMem img base) entry = some l ↔
    ∃ len, Field img base 4 entry len ∧ l = behind entry len := by
  rw [latterOf, Option.bind_eq_bind, Option.bind_eq_some_iff]
  constructor
  · rintro ⟨len, hlen, h⟩
    exact ⟨len, u32At_iff.mp hlen, (Option.some.inj h).symm⟩
  · rintro ⟨len, hlen, rfl⟩
    exact ⟨len, u32At_iff.mpr hlen, rfl⟩

theorem searchIn_of_isSome {entry : Nat} {fn : PathView} {isDir : Bool}
    (h : (findInDir (onlyMem img fs.rawFsMemloc) fs entry fn isDir).isSome) :
    SearchIn img fs entry fn isDir := by
  obtain ⟨r, h⟩ := Option.isSome_iff_exists.mp h
  rw [findInDir_eq] at h
  obtain ⟨l, hl, h⟩ := Option.bind_eq_some_iff.mp h
  obtain ⟨len, hlen, rfl⟩ := latterOf_iff.mp hl
  cases hfile : fn.isFile isDir with
  | true =>
      rw [if_pos hfile] at h
      obtain ⟨st, hst, h⟩ := Option.bind_eq_some_iff.mp h
      obtain ⟨n, hn, h⟩ := Option.bind_eq_some_iff.mp h
      exact .file hfile hlen (u32At_iff.mp hst) (u16At_iff.mp hn)
        (findFile_isSome_iff.mp (Option.isSome_iff_exists.mpr ⟨r, h⟩))
  | false =>
      rw [if_neg (by rw [hfile]; decide)] at h
      obtain ⟨st, hst, h⟩ := Option.bind_eq_some_iff.mp h
      obtain ⟨n, hn, h⟩ := Option.bind_eq_some_iff.mp h
      obtain ⟨e, he, h⟩ := Option.bind_eq_some_iff.mp h
      refine .dir hfile hlen (u32At_iff.mp hst) (u16At_iff.mp hn) (findDir_eq_some_iff.mp he) ?_
      rintro child rfl hlt
      have h : (if fn.len ≤ fn.nameLen + 1 then some none
          else findInDir (onlyMem img fs.rawFsMemloc) fs child fn.rest fn.rest.hasSlash) = some r := h
      rw [if_neg (Nat.not_le.mpr hlt)] at h
      exact searchIn_of_isSome (Option.isSome_iff_exists.mpr ⟨r, h⟩)
termination_by fn.len
decreasing_by
  simp only [PathView.rest]
  omega

/-- The search stays in the image exactly if what it passes lies there. -/
theorem findInDir_isSome_iff :
    (findInDir (onlyMem img fs.rawFsMemloc) fs entry fn isDir).isSome ↔
      SearchIn img fs entry fn isDir := by
  refine ⟨searchIn_of_isSome, fun h => ?_⟩
  induction h with
  | file hfile h hst hn hs =>
      rw [findInDir_eq, latterOf_iff.mpr ⟨_, h, rfl⟩]
      simp only [Option.bind_some, if_pos hfile, fstart, fAm, u32At_iff.mpr hst, u16At_iff.mpr hn]
      exact findFile_isSome_iff.mpr hs
  | @dir entry len st n fn isDir r hdir h hst hn hs hr ih =>
      rw [findInDir_eq, latterOf_iff.mpr ⟨_, h, rfl⟩]
      simp only [Option.bind_some, hdir, dirstart, dirHdrAm, u32At_iff.mpr hst,
        u16At_iff.mpr hn, findDir_eq_some_iff.mpr hs, Bool.false_eq_true, if_false]
      cases r with
      | none => rfl
      | some child =>
          simp only
          split
          · rfl
          · rename_i hlt
            exact ih child rfl (Nat.not_le.mp hlt)

/-- Counts and positions of a directory. -/
structure HeaderIn (img : List UInt8) (base a : Nat) (it : DirIterator) : Prop where
  dirHdrAm : Field img base 2 a it.dirsRemaining
  fAm : Field img base 2 (wrap (a + 2)) it.filesRemaining
  dirstart : Field img base 4 (wrap (a + 4)) it.dirPos
  fstart : Field img base 4 (wrap (a + 8)) it.filePos

variable (img fs) in
/-- Down a path of directories, from the list at `a`: the lists as far as they are searched and the
counts and positions of the directories lie in the image. -/
inductive WalkIn (dirCount : Nat) : List UInt8 → Nat → Prop where
  | done {a : Nat} : WalkIn dirCount [] a
  | slash {c : UInt8} {cs : List UInt8} {a : Nat} (h : strlenSpecChar (c :: cs) slash = 0) :
      WalkIn dirCount (c :: cs) a
  | missing {c : UInt8} {cs : List UInt8} {a : Nat} (hne : strlenSpecChar (c :: cs) slash ≠ 0)
      (h : DirsIn img fs.rawFsMemloc ((c :: cs).take (strlenSpecChar (c :: cs) slash)) dirCount a
        none) : WalkIn dirCount (c :: cs) a
  | dir {c : UInt8} {cs : List UInt8} {a entry len : Nat} {it : DirIterator}
      (hne : strlenSpecChar (c :: cs) slash ≠ 0)
      (h : DirsIn img fs.rawFsMemloc ((c :: cs).take (strlenSpecChar (c :: cs) slash)) dirCount a
        (some entry))
      (hlen : Field img fs.rawFsMemloc 4 entry len)
      (hit : HeaderIn img fs.rawFsMemloc (behind entry len) it)
      (hw : WalkIn dirCount (cs.drop (strlenSpecChar (c :: cs) slash))
        (wrap (fs.rawFsMemloc + it.dirPos))) : WalkIn dirCount (c :: cs) a

/-- The four loads of a header, into an iterator. -/
theorem header_iff {β : Type} {y : β} {f : DirIterator → Option β} :
    ((dirstart (onlyMem img base) a).bind fun dirPos => (fstart (onlyMem img base) a).bind fun filePos =>
        (dirHdrAm (onlyMem img base) a).bind fun dirsRemaining =>
          (fAm (onlyMem img base) a).bind fun filesRemaining =>
            f ⟨dirPos, filePos, dirsRemaining, filesRemaining⟩) = some y ↔
      ∃ it, HeaderIn img base a it ∧ f it = some y := by
  constructor
  · intro h
    obtain ⟨dirPos, hds, h⟩ := Option.bind_eq_some_iff.mp h
    obtain ⟨filePos, hfs, h⟩ := Option.bind_eq_some_iff.mp h
    obtain ⟨dirs, hd, h⟩ := Option.bind_eq_some_iff.mp h
    obtain ⟨files, hf, h⟩ := Option.bind_eq_some_iff.mp h
    exact ⟨⟨dirPos, filePos, dirs, files⟩,
      ⟨u16At_iff.mp hd, u16At_iff.mp hf, u32At_iff.mp hds, u32At_iff.mp hfs⟩, h⟩
  · rintro ⟨it, ⟨hd, hf, hds, hfs⟩, h⟩
    simp only [dirstart, fstart, dirHdrAm, fAm, u32At_iff.mpr hds, u32At_iff.mpr hfs,
      u16At_iff.mpr hd, u16At_iff.mpr hf, Option.bind_some]
    exact h

theorem walkDirs_cons {c : UInt8} {ret : DirIterator} :
    walkDirs mem fs dirCount (c :: cs) a ret =
      if strlenSpecChar (c :: cs) slash = 0 then some none
      else (findDir mem ((c :: cs).take (strlenSpecChar (c :: cs) slash)) dirCount a).bind fun
        | none => some none
        | some entry => (latterOf mem entry).bind fun latter =>
            (dirstart mem latter).bind fun dirPos => (fstart mem latter).bind fun filePos =>
              (dirHdrAm mem latter).bind fun dirsRemaining => (fAm mem latter).bind fun filesRemaining =>
                walkDirs mem fs dirCount (cs.drop (strlenSpecChar (c :: cs) slash))
                  (wrap (fs.rawFsMemloc + dirPos))
                  ⟨dirPos, filePos, dirsRemaining, filesRemaining⟩ := by
  rw [walkDirs]
  rfl

theorem walkIn_of_isSome : ∀ {cs : List UInt8} {a : Nat} {ret : DirIterator},
    (walkDirs (onlyMem img fs.rawFsMemloc) fs dirCount cs a ret).isSome →
      WalkIn img fs dirCount cs a
  | [], _, _, _ => .done
  | c :: cs, a, ret, h => by
      obtain ⟨r, h⟩ := Option.isSome_iff_exists.mp h
      rw [walkDirs_cons] at h
      split at h
      · rename_i hzero
        exact .slash hzero
      · rename_i hne
        obtain ⟨e, he, h⟩ := Option.bind_eq_some_iff.mp h
        have he := findDir_eq_some_iff.mp he
        cases e with
        | none => exact .missing hne he
        | some entry =>
            obtain ⟨l, hl, h⟩ := Option.bind_eq_some_iff.mp h
            obtain ⟨len, hlen, rfl⟩ := latterOf_iff.mp hl
            obtain ⟨it, hit, h⟩ := (header_iff (f := fun it => walkDirs
              (onlyMem img fs.rawFsMemloc) fs dirCount (cs.drop (strlenSpecChar (c :: cs) slash))
              (wrap (fs.rawFsMemloc + it.dirPos)) it)).mp h
            exact .dir hne he hlen hit (walkIn_of_isSome (Option.isSome_iff_exists.mpr ⟨r, h⟩))
termination_by cs => cs.length
decreasing_by
  simp only [List.length_drop, List.length_cons]
  omega

theorem walkDirs_isSome_iff (ret : DirIterator) :
    (walkDirs (onlyMem img fs.rawFsMemloc) fs dirCount cs a ret).isSome ↔
      WalkIn img fs dirCount cs a := by
  refine ⟨walkIn_of_isSome, fun h => ?_⟩
  induction h generalizing ret with
  | done => rw [walkDirs]; rfl
  | slash h => rw [walkDirs_cons, if_pos h]; rfl
  | missing hne h => rw [walkDirs_cons, if_neg hne, findDir_eq_some_iff.mpr h]; rfl
  | @dir c cs a entry len it hne h hlen hit hw ih =>
      obtain ⟨r, hr⟩ := Option.isSome_iff_exists.mp (@ih it)
      rw [walkDirs_cons, if_neg hne, findDir_eq_some_iff.mpr h, Option.isSome_iff_exists]
      refine ⟨r, Option.bind_eq_some_iff.mpr ⟨some entry, rfl, ?_⟩⟩
      refine Option.bind_eq_some_iff.mpr ⟨_, latterOf_iff.mpr ⟨len, hlen, rfl⟩, ?_⟩
      exact (header_iff (f := fun it => walkDirs (onlyMem img fs.rawFsMemloc) fs dirCount
        (cs.drop (strlenSpecChar (c :: cs) slash)) (wrap (fs.rawFsMemloc + it.dirPos)) it)).mpr
          ⟨it, hit, hr⟩

/-! ### Calls -/

/-- A call on a file system that passed the check, with what it takes from the caller. -/
inductive Query where
  | «open» (fp : CStr)
  | getDirIt (fp : CStr)
  | nextDir (dirit : DirIterator)
  | nextFile (dirit : DirIterator)
  | inDir (dd : DirData) (fn : List UInt8)

/-- The call comes to its end where nothing but the image may be read. -/
def Query.InBounds (img : List UInt8) (fs : RivFs) : Query → Prop
  | .open fp => (RivFs.open (onlyMem img fs.rawFsMemloc) fs fp).isSome
  | .getDirIt fp => (RivFs.getDirIt (onlyMem img fs.rawFsMemloc) fs fp).isSome
  | .nextDir dirit => (dirItGetNextDir (onlyMem img fs.rawFsMemloc) fs dirit).isSome
  | .nextFile dirit => (dirItGetNextFile (onlyMem img fs.rawFsMemloc) fs dirit).isSome
  | .inDir dd fn => (openFileInDirData (onlyMem img fs.rawFsMemloc) fs dd fn).isSome

/-- What is left of a path behind its first slash but one. -/
def restOf (fp : CStr) : PathView :=
  let firstSlash := findChar fp.chars.tail slash
  ⟨fp.chars.drop (1 + firstSlash + 1), strlen fp - 1 - firstSlash - 1⟩

/-- The list of files that the header at `a` tells of, as far as `needed` is searched. -/
def FilesOf (img : List UInt8) (base a : Nat) (needed : Name) : Prop :=
  ∃ st n, Field img base 4 (wrap (a + 8)) st ∧ Field img base 2 (wrap (a + 2)) n ∧
    FilesIn img base needed n (wrap (base + st))

/-- What a call passes in the image. -/
def Query.Inside (img : List UInt8) (fs : RivFs) : Query → Prop
  | .open fp => charAt fp.chars 0 = slash →
      match fileParts fp.chars.tail with
      | [] => True
      | [part] => FilesOf img fs.rawFsMemloc fs.fph part.sv
      | part :: _ :: _ => part.isDir = true →
          ∃ st n r, Field img fs.rawFsMemloc 4 (wrap (fs.fph + 4)) st ∧
            Field img fs.rawFsMemloc 2 fs.fph n ∧
              DirsIn img fs.rawFsMemloc part.sv n (wrap (fs.rawFsMemloc + st)) r ∧
                ∀ entry, r = some entry → findChar fp.chars.tail slash ≠ 0 →
                  SearchIn img fs entry (restOf fp) (restOf fp).hasSlash
  | .getDirIt fp => charAt fp.chars 0 = slash →
      ∃ it, HeaderIn img fs.rawFsMemloc fs.fph it ∧
        WalkIn img fs it.dirsRemaining fp.chars.tail (wrap (fs.rawFsMemloc + it.dirPos))
  | .nextDir dirit => dirit.dirsRemaining ≠ 0 →
      ∃ len, Field img fs.rawFsMemloc 4 (wrap (fs.rawFsMemloc + dirit.dirPos)) len
  | .nextFile dirit => dirit.filesRemaining ≠ 0 →
      ∃ len, Field img fs.rawFsMemloc 4 (wrap (fs.rawFsMemloc + dirit.filePos)) len ∧
        (len ≠ 0 → ∃ contsLen, Field img fs.rawFsMemloc 4
          (wrap (fs.rawFsMemloc + behind dirit.filePos len)) contsLen)
  | .inDir dd fn => FilesOf img fs.rawFsMemloc (wrap (fs.rawFsMemloc + dd.dir.constPos)) fn

theorem filesOf_iff {needed : Name} : ((fstart (onlyMem img base) a).bind fun st =>
    (fAm (onlyMem img base) a).bind fun n =>
      findFile (onlyMem img base) needed n (wrap (base + st))).isSome ↔
        FilesOf img base a needed := by
  rw [Option.isSome_iff_exists]
  constructor
  · rintro ⟨r, h⟩
    obtain ⟨st, hst, h⟩ := Option.bind_eq_some_iff.mp h
    obtain ⟨n, hn, h⟩ := Option.bind_eq_some_iff.mp h
    exact ⟨st, n, u32At_iff.mp hst, u16At_iff.mp hn,
      findFile_isSome_iff.mp (Option.isSome_iff_exists.mpr ⟨r, h⟩)⟩
  · rintro ⟨st, n, hst, hn, h⟩
    obtain ⟨r, hr⟩ := Option.isSome_iff_exists.mp (findFile_isSome_iff.mpr h)
    exact ⟨r, Option.bind_eq_some_iff.mpr ⟨st, u32At_iff.mpr hst,
      Option.bind_eq_some_iff.mpr ⟨n, u16At_iff.mpr hn, hr⟩⟩⟩

theorem inBounds_open {fp : CStr} :
    (Query.open fp).InBounds img fs ↔ (Query.open fp).Inside img fs := by
  rw [Query.InBounds, Query.Inside, RivFs.open]
  split
  · rename_i hne
    exact iff_of_true rfl fun h => absurd h hne
  · rename_i hslash
    rw [forall_prop_of_true (not_not.mp hslash)]
    generalize fileParts fp.chars.tail = parts
    rcases parts with _ | ⟨part, _ | ⟨next, rest⟩⟩
    · exact iff_of_true rfl trivial
    · exact filesOf_iff
    · simp only
      cases hdir : part.isDir with
      | false => exact iff_of_true rfl nofun
      | true =>
          rw [if_neg (by decide), Option.isSome_iff_exists, forall_prop_of_true rfl]
          constructor
          · rintro ⟨r, h⟩
            obtain ⟨st, hst, h⟩ := Option.bind_eq_some_iff.mp h
            obtain ⟨n, hn, h⟩ := Option.bind_eq_some_iff.mp h
            obtain ⟨e, he, h⟩ := Option.bind_eq_some_iff.mp h
            refine ⟨st, n, e, u32At_iff.mp hst, u16At_iff.mp hn, findDir_eq_some_iff.mp he, ?_⟩
            rintro entry rfl hne
            simp only [if_neg hne] at h
            exact findInDir_isSome_iff.mp (Option.isSome_iff_exists.mpr ⟨r, h⟩)
          · rintro ⟨st, n, e, hst, hn, he, h⟩
            simp only [dirstart, dirHdrAm, u32At_iff.mpr hst, u16At_iff.mpr hn,
              findDir_eq_some_iff.mpr he, Option.bind_eq_bind, Option.bind_some]
            cases e with
            | none => exact ⟨none, rfl⟩
            | some entry =>
                simp only
                split
                · exact ⟨none, rfl⟩
                · rename_i hne
                  exact Option.isSome_iff_exists.mp (findInDir_isSome_iff.mpr (h entry rfl hne))

theorem inBounds_getDirIt {fp : CStr} :
    (Query.getDirIt fp).InBounds img fs ↔ (Query.getDirIt fp).Inside img fs := by
  rw [Query.InBounds, Query.Inside, RivFs.getDirIt]
  split
  · rename_i hne
    exact iff_of_true rfl fun h => absurd h hne
  · rename_i hslash
    rw [forall_prop_of_true (not_not.mp hslash), Option.isSome_iff_exists]
    constructor
    · rintro ⟨r, h⟩
      obtain ⟨it, hit, h⟩ := (header_iff (f := fun it => walkDirs (onlyMem img fs.rawFsMemloc) fs
        it.dirsRemaining fp.chars.tail (wrap (fs.rawFsMemloc + it.dirPos)) it)).mp h
      exact ⟨it, hit, (walkDirs_isSome_iff it).mp (Option.isSome_iff_exists.mpr ⟨r, h⟩)⟩
    · rintro ⟨it, hit, h⟩
      obtain ⟨r, hr⟩ := Option.isSome_iff_exists.mp ((walkDirs_isSome_iff it).mpr h)
      exact ⟨r, (header_iff (f := fun it => walkDirs (onlyMem img fs.rawFsMemloc) fs
        it.dirsRemaining fp.chars.tail (wrap (fs.rawFsMemloc + it.dirPos)) it)).mpr ⟨it, hit, hr⟩⟩

theorem inBounds_nextDir {dirit : DirIterator} :
    (Query.nextDir dirit).InBounds img fs ↔ (Query.nextDir dirit).Inside img fs := by
  rw [Query.InBounds, Query.Inside, dirItGetNextDir]
  split
  · rename_i hzero
    exact iff_of_true rfl fun h => absurd hzero h
  · rename_i hne
    rw [forall_prop_of_true hne, Option.isSome_iff_exists]
    constructor
    · rintro ⟨r, h⟩
      obtain ⟨len, hlen, -⟩ := Option.bind_eq_some_iff.mp h
      exact ⟨len, u32At_iff.mp hlen⟩
    · rintro ⟨len, hlen⟩
      simp only [u32At_iff.mpr hlen, Option.bind_eq_bind, Option.bind_some]
      split <;> exact ⟨_, rfl⟩

theorem inBounds_nextFile {dirit : DirIterator} :
    (Query.nextFile dirit).InBounds img fs ↔ (Query.nextFile dirit).Inside img fs := by
  rw [Query.InBounds, Query.Inside, dirItGetNextFile]
  split
  · rename_i hzero
    exact iff_of_true rfl fun h => absurd hzero h
  · rename_i hne
    rw [forall_prop_of_true hne, Option.isSome_iff_exists]
    constructor
    · rintro ⟨r, h⟩
      obtain ⟨len, hlen, h⟩ := Option.bind_eq_some_iff.mp h
      refine ⟨len, u32At_iff.mp hlen, fun hlen0 => ?_⟩
      simp only [if_neg hlen0] at h
      obtain ⟨contsLen, hc, -⟩ := Option.bind_eq_some_iff.mp h
      exact ⟨contsLen, u32At_iff.mp hc⟩
    · rintro ⟨len, hlen, h⟩
      simp only [u32At_iff.mpr hlen, Option.bind_eq_bind, Option.bind_some]
      split
      · exact ⟨_, rfl⟩
      · rename_i hlen0
        obtain ⟨contsLen, hc⟩ := h hlen0
        exact ⟨_, Option.bind_eq_some_iff.mpr ⟨contsLen, u32At_iff.mpr hc, rfl⟩⟩

/-- The headers of an image with one file, whose list would be at 35. -/
def headersOnly : List UInt8 :=
  Genfs.rivFsHeader Genfs.fphSize Genfs.headerSize [0, 0] 1 ++ Genfs.filePositionHeader 0 1 35 35 0

end RivFs
end RivOS
