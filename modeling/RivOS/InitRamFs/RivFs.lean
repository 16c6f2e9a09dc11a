import RivOS.Lib.CString
import RivOS.Support.Bytes

/-!
# InitRamFs — The image reader

`drivers/fs/rivfs/rivfs.hpp`.  The image is read through pointers into a memory not all of which
may be read; `none` is a read outside it, and the inner `none` an `ExpectedErr`.  Pointers and
positions are 32-bit numbers, and their sums wrap around (`wrap`).

The C string that `findInDir` copies its name to is a value here: it is freed before it is left.
-/

namespace RivOS

structure RivFs where
  rawFsMemloc : Nat
  rawFsSize : Nat
  fph : Nat

namespace RivFs

def INITIAL_MAGIC : List UInt8 := [0x72, 0x69, 0x76, 0x66, 0x73]

/-- A 32-bit sum. -/
def wrap (n : Nat) : Nat := n % 2 ^ 32

variable (mem : PMem)

def u16At (p : Nat) : Option Nat := peekLE mem 2 p
def u32At (p : Nat) : Option Nat := peekLE mem 4 p

/-! ### Headers -/

/-- `sizeof(FilePositionHeader)` and `sizeof(DirEntryLatter)`, which have the same fields. -/
def sizeofFph : Nat := 16

def dirHdrAm (p : Nat) : Option Nat := u16At mem p
def fAm (p : Nat) : Option Nat := u16At mem (wrap (p + 2))
def dirstart (p : Nat) : Option Nat := u32At mem (wrap (p + 4))
def fstart (p : Nat) : Option Nat := u32At mem (wrap (p + 8))

/-- The `DirEntryLatter` behind the name of the entry at `entry`. -/
def latterOf (entry : Nat) : Option Nat := do
  let nameLen ← u32At mem entry
  return wrap (wrap (entry + 4) + nameLen)

/-- The offsets of `BaseHdr`: magic 0, fphSize 5, fphPos 9, vers 13, flgs 15. -/
def checkCorrectness (fs : RivFs) : Option (Bool × RivFs) := do
  let same ← peekEq mem fs.rawFsMemloc INITIAL_MAGIC
  if !same then return (false, fs) else
  let fphSize ← u32At mem (wrap (fs.rawFsMemloc + 5))
  if fphSize ≠ sizeofFph then return (false, fs) else
  let fphPos ← u32At mem (wrap (fs.rawFsMemloc + 9))
  if fphPos = 0 then return (false, fs) else
  let flgs ← u32At mem (wrap (fs.rawFsMemloc + 15))
  if flgs &&& 1 = 0 then return (false, fs) else
  let fs := { fs with fph := wrap (fs.rawFsMemloc + fphPos) }
  let dirstart ← dirstart mem fs.fph
  if dirstart = 0 then return (false, fs) else
  let fstart ← fstart mem fs.fph
  if fstart = 0 then return (false, fs) else
  return (true, fs)

/-! ### Searching a list -/

structure File where
  startPos : Nat
  contsSvPos : Nat

/-- Whether the name of length `len` at `p` is `needed`; the bytes are compared only when the
lengths agree. -/
def nameIs (p len : Nat) (needed : List UInt8) : Option Bool :=
  if len = needed.length then peekEq mem p needed else some false

/-- The loop over a file list that `open` and `findInDir` share, for `n` more entries. -/
def findFile (needed : List UInt8) : Nat → Nat → Option (Option File)
  | 0, _ => some none
  | n + 1, currentOffs => do
      let currentSvLen ← u32At mem currentOffs
      if currentSvLen = 0 then return none else
      let svPos := wrap (currentOffs + 4)
      let same ← nameIs mem svPos currentSvLen needed
      let contsSvPos := wrap (svPos + currentSvLen)
      if same then return some ⟨currentOffs, contsSvPos⟩ else
      let contsLen ← u32At mem contsSvPos
      findFile needed n (wrap (wrap (contsSvPos + 4) + contsLen))

/-- The loop over a directory list that `open`, `findInDir` and `getDirIt` share: where the entry
is. -/
def findDir (needed : List UInt8) : Nat → Nat → Option (Option Nat)
  | 0, _ => some none
  | n + 1, currentOffs => do
      let currentSvLen ← u32At mem currentOffs
      if currentSvLen = 0 then return none else
      let svPos := wrap (currentOffs + 4)
      let same ← nameIs mem svPos currentSvLen needed
      if same then return some currentOffs else
      findDir needed n (wrap (wrap (svPos + currentSvLen) + sizeofFph))

/-! ### `open` -/

/-- A `StringView` into a path: the characters from `raw` to the NUL, and `len`. -/
structure PathView where
  raw : List UInt8
  len : Nat

def findInDir (fs : RivFs) (dirEntry : Nat) (fn : PathView) (isDir : Bool) :
    Option (Option File) := do
  let slashPos := findChar (fn.raw.take fn.len) slash
  let hasSlash := slashPos != 0
  let nameLen := if hasSlash then slashPos else fn.len
  let neededFilenameToFind := fn.raw.take nameLen
  let latterDirEntry ← latterOf mem dirEntry
  if !hasSlash && !isDir then
    let fStart ← fstart mem latterDirEntry
    let fileAm ← fAm mem latterDirEntry
    findFile mem neededFilenameToFind fileAm (wrap (fs.rawFsMemloc + fStart))
  else
    let dirStart ← dirstart mem latterDirEntry
    let dirAm ← dirHdrAm mem latterDirEntry
    match ← findDir mem neededFilenameToFind dirAm (wrap (fs.rawFsMemloc + dirStart)) with
    | none => return none
    | some childDirEntry =>
        let consumed := nameLen + 1
        if _h : fn.len ≤ consumed then return none else
        let remaining : PathView := ⟨fn.raw.drop consumed, fn.len - consumed⟩
        findInDir fs childDirEntry remaining (findChar remaining.raw slash != 0)
termination_by fn.len
decreasing_by omega

structure FilePart where
  sv : List UInt8
  isDir : Bool

/-- The loop of `open` that splits the path; a slash without a name before it is skipped. -/
def fileParts (fp : List UInt8) : List FilePart :=
  match fp with
  | [] => []
  | c :: cs =>
      let len := strlenSpecChar (c :: cs) slash
      if len = 0 then fileParts cs
      else ⟨(c :: cs).take len, charAt (c :: cs) len == slash⟩ :: fileParts (cs.drop len)
termination_by fp.length
decreasing_by all_goals (simp; try omega)

def «open» (fs : RivFs) (fp : CStr) : Option (Option File) :=
  if charAt fp.chars 0 ≠ slash then some none else
  match fileParts fp.chars.tail with
  | [] => some none
  | [part] => do
      let st ← fstart mem fs.fph
      let n ← fAm mem fs.fph
      findFile mem part.sv n (wrap (fs.rawFsMemloc + st))
  | part :: _ :: _ =>
      if !part.isDir then some none else do
        let st ← dirstart mem fs.fph
        let n ← dirHdrAm mem fs.fph
        match ← findDir mem part.sv n (wrap (fs.rawFsMemloc + st)) with
        | none => return none
        | some newDirEntry =>
            let firstSlash := findChar fp.chars.tail slash
            if firstSlash = 0 then return none else
            let newFp : PathView := ⟨fp.chars.drop (1 + firstSlash + 1),
              strlen fp - 1 - firstSlash - 1⟩
            findInDir mem fs newDirEntry newFp (findChar newFp.raw slash != 0)

def filesize (f : File) : Option Nat := u32At mem f.contsSvPos

/-- The bytes `read` stores from `obuf` on; `strcpyLen` adds a NUL. -/
def read (f : File) : Option (List UInt8) := do
  let len ← u32At mem f.startPos
  let size ← filesize mem f
  let conts ← peek mem (wrap (wrap (f.startPos + len) + 8)) size
  return conts ++ [0]

/-! ### Iterators -/

/-- A `StringView` into the image. -/
structure StringView where
  raw : Nat
  len : Nat

structure Dir where
  startPos : Nat
  constPos : Nat

structure DirIterator where
  dirPos : Nat
  filePos : Nat
  dirsRemaining : Nat
  filesRemaining : Nat

structure FileData where
  filename : StringView
  file : File

structure DirData where
  dirname : StringView
  dir : Dir

/-- The loop of `getDirIt` over the rest of the path; `dirCount` stays what it was for the root. -/
def walkDirs (fs : RivFs) (dirCount : Nat) (fp : List UInt8) (currentDir : Nat)
    (ret : DirIterator) : Option (Option DirIterator) :=
  match fp with
  | [] => some (some ret)
  | c :: cs => do
      let len := strlenSpecChar (c :: cs) slash
      if len = 0 then return none else
      match ← findDir mem ((c :: cs).take len) dirCount currentDir with
      | none => return none
      | some entry =>
          let latter ← latterOf mem entry
          let dirPos ← dirstart mem latter
          let filePos ← fstart mem latter
          let dirsRemaining ← dirHdrAm mem latter
          let filesRemaining ← fAm mem latter
          -- the name, and the slash behind it if there is one
          walkDirs fs dirCount (cs.drop len) (wrap (fs.rawFsMemloc + dirPos))
            ⟨dirPos, filePos, dirsRemaining, filesRemaining⟩
termination_by fp.length
decreasing_by
  simp only [List.length_drop, List.length_cons]
  omega

/-- A path that goes past the root goes through the loop at least once, so that the iterator it
starts with is not returned. -/
def getDirIt (fs : RivFs) (fp : CStr) : Option (Option DirIterator) :=
  if charAt fp.chars 0 ≠ slash then some none else do
    let dirPos ← dirstart mem fs.fph
    let filePos ← fstart mem fs.fph
    let dirsRemaining ← dirHdrAm mem fs.fph
    let filesRemaining ← fAm mem fs.fph
    walkDirs mem fs dirsRemaining fp.chars.tail (wrap (fs.rawFsMemloc + dirPos))
      ⟨dirPos, filePos, dirsRemaining, filesRemaining⟩

def dirItGetNextFile (fs : RivFs) (dirit : DirIterator) : Option (Option FileData × DirIterator) :=
  if dirit.filesRemaining = 0 then some (none, dirit) else do
    let svLen ← u32At mem (wrap (fs.rawFsMemloc + dirit.filePos))
    if svLen = 0 then return (none, { dirit with filesRemaining := 0 }) else
    let namePos := wrap (dirit.filePos + 4)
    let lenPos := wrap (namePos + svLen)
    let contsLen ← u32At mem (wrap (fs.rawFsMemloc + lenPos))
    return (some ⟨⟨wrap (fs.rawFsMemloc + namePos), svLen⟩,
        ⟨dirit.filePos, wrap (fs.rawFsMemloc + lenPos)⟩⟩,
      { dirit with
        filePos := wrap (wrap (lenPos + 4) + contsLen)
        filesRemaining := dirit.filesRemaining - 1 })

def dirItGetNextDir (fs : RivFs) (dirit : DirIterator) : Option (Option DirData × DirIterator) :=
  if dirit.dirsRemaining = 0 then some (none, dirit) else do
    let svLen ← u32At mem (wrap (fs.rawFsMemloc + dirit.dirPos))
    if svLen = 0 then return (none, { dirit with dirsRemaining := 0 }) else
    let namePos := wrap (dirit.dirPos + 4)
    let constPos := wrap (namePos + svLen)
    return (some ⟨⟨wrap (fs.rawFsMemloc + namePos), svLen⟩, ⟨dirit.dirPos, constPos⟩⟩,
      { dirit with
        dirPos := wrap (constPos + sizeofFph)
        dirsRemaining := dirit.dirsRemaining - 1 })

/-- `fn` is the text of the view that is passed. -/
def openFileInDirData (fs : RivFs) (dd : DirData) (fn : List UInt8) : Option (Option File) := do
  let latter := wrap (fs.rawFsMemloc + dd.dir.constPos)
  let st ← fstart mem latter
  let n ← fAm mem latter
  findFile mem fn n (wrap (fs.rawFsMemloc + st))

end RivFs
end RivOS
