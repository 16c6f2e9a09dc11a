import RivOS.InitRamFs.Genfs
import RivOS.Support.Loops
import RivOS.Support.Utf8

/-!
# InitRamFs — The image reader in Python

`initramfs/genfs/rivfsdata.py`, without its command line and its listing.  An exception is an
error; what goes to `stderr` comes with the result.

`_walk` calls itself for every subdirectory; the model counts how many calls of it still fit under
the recursion limit (`frames`).  The offsets it follows come from the image and are natural
numbers, so that the test for a negative one is left out.
-/

namespace RivOS.RivFsData

/-- A Python `str`. -/
abbrev Str := List Char

inductive RivFsCorrupt where
  | outOfBounds (size off imageSize : Nat)
  | tooSmall
  | badMagic (magic : List UInt8)
  | notReadOnly

inductive Raised where
  | rivFsCorrupt (e : RivFsCorrupt)
  | recursionError
  /-- No exception, but a loop that goes on; it is not reached, see `fileTurn_shrinks`. -/
  | endless

inductive Warning where
  | version (major minor : Nat)
  | fphSize (size : Nat)
  | fileCount (dir : Str) (fAm found : Nat)
  | dirCount (dir : Str) (dirhdrAm found : Nat)

structure RivFsHeader where
  magic : List UInt8
  fphSize : Nat
  fphPos : Nat
  versMajor : Nat
  versMinor : Nat
  flags : Nat

structure FileEntry where
  name : Str
  offset : Nat
  filesize : Nat
  contentOffset : Nat

structure DirEntry where
  name : Str
  offset : Nat
  dirhdrAm : Nat
  fAm : Nat
  dirstart : Nat
  fstart : Nat
  flags : Nat
  dirs : List DirEntry := []
  files : List FileEntry := []

structure RivFsImage where
  data : List UInt8
  header : RivFsHeader
  root : DirEntry

variable (data : List UInt8)

/-! ### Little-endian primitive readers -/

def checkBounds (off size : Nat) : Except Raised Unit :=
  if data.length < off + size then
    .error (.rivFsCorrupt (.outOfBounds size off data.length))
  else .ok ()

/-- `data[off : off + size]`. -/
def slice (off size : Nat) : List UInt8 := (data.drop off).take size

/-- `_u8`, `_u16` and `_u32`, for a size of 1, 2 and 4. -/
def uint (size off : Nat) : Except Raised Nat := do
  checkBounds data off size
  return ofLE (slice data off size)

def u8 (off : Nat) : Except Raised Nat := uint data 1 off
def u16 (off : Nat) : Except Raised Nat := uint data 2 off
def u32 (off : Nat) : Except Raised Nat := uint data 4 off

/-! ### Header -/

def FLGS_RONLY : Nat := 1

def FPH_FIXED_SIZE : Nat := 16

def parseHeader : Except Raised (RivFsHeader × List Warning) :=
  if data.length < 19 then .error (.rivFsCorrupt .tooSmall) else
  let magic := slice data 0 5
  if magic ≠ Genfs.MAGIC then .error (.rivFsCorrupt (.badMagic magic)) else do
    let fphSize ← u32 data 5
    let fphPos ← u32 data 9
    let versMajor ← u8 data 13
    let versMinor ← u8 data 14
    let flags ← u32 data 15
    let warnings := if (versMajor, versMinor) ≠ (0, 0) then [.version versMajor versMinor] else []
    if flags &&& FLGS_RONLY = 0 then .error (.rivFsCorrupt .notReadOnly) else
    return (⟨magic, fphSize, fphPos, versMajor, versMinor, flags⟩, warnings)

/-! ### Directory walking -/

/-- A name and the offset behind it; `none` is the mark at the end of a list. -/
def readName (off : Nat) : Except Raised (Option (List UInt8) × Nat) := do
  let length ← u32 data off
  if length = 0 then return (none, off + 4) else do
    checkBounds data (off + 4) length
    return (some (slice data (off + 4) length), off + 4 + length)

/-- The five fields from `pos` on, which the root and a subdirectory share. -/
def readDir (name : Str) (offset pos : Nat) : Except Raised DirEntry := do
  let dirhdrAm ← u16 data pos
  let fAm ← u16 data (pos + 2)
  let dirstart ← u32 data (pos + 4)
  let fstart ← u32 data (pos + 8)
  let flags ← u32 data (pos + 12)
  return { name, offset, dirhdrAm, fAm, dirstart, fstart, flags }

/-- One turn of the loop over the files, which has come to `off`. -/
def fileTurn : Nat × List FileEntry → Except Raised ((Nat × List FileEntry) ⊕ List FileEntry)
  | (off, files) => do
      match ← readName data off with
      | (none, _) => return .inr files
      | (some name, afterName) => do
          let filesize ← u32 data afterName
          let contentOff := afterName + 4
          checkBounds data contentOff filesize
          let file := ⟨decodeReplace name, off, filesize, contentOff⟩
          return .inl (contentOff + filesize, files ++ [file])

/-- One turn of the loop over the subdirectories; the call of `_walk` is `walk`. -/
def dirTurn (walk : DirEntry → Except Raised (DirEntry × List Warning)) :
    Nat × List DirEntry × List Warning →
      Except Raised ((Nat × List DirEntry × List Warning) ⊕ (List DirEntry × List Warning))
  | (off, dirs, warnings) => do
      match ← readName data off with
      | (none, _) => return .inr (dirs, warnings)
      | (some name, afterName) => do
          let sub ← readDir data (decodeReplace name) off afterName
          let (sub, more) ← walk sub
          return .inl (afterName + FPH_FIXED_SIZE, dirs ++ [sub], warnings ++ more)

/-- How much of the image lies behind the offset a loop has come to. -/
def left {α : Type} (s : Nat × α) : Nat := data.length - s.1

def walk : Nat → DirEntry → Except Raised (DirEntry × List Warning)
  | 0, _ => .error .recursionError
  | frames + 1, d => do
      let files ← loop (fileTurn data) .endless (left data) (d.fstart, [])
      let warnings := if files.length ≠ d.fAm then [.fileCount d.name d.fAm files.length] else []
      let (dirs, warnings) ←
        loop (dirTurn data (walk frames)) .endless (left data) (d.dirstart, [], warnings)
      let warnings := warnings ++
        if dirs.length ≠ d.dirhdrAm then [.dirCount d.name d.dirhdrAm dirs.length] else []
      return ({ d with dirs, files }, warnings)

def parseRoot (frames : Nat) (header : RivFsHeader) : Except Raised (DirEntry × List Warning) := do
  let pos := header.fphPos
  let warnings := if header.fphSize < FPH_FIXED_SIZE then [.fphSize header.fphSize] else []
  let root ← readDir data ['/'] pos pos
  let (root, more) ← walk data frames root
  return (root, warnings ++ more)

/-- `__init__`, from the bytes of the file on. -/
def RivFsImage.init (frames : Nat) : Except Raised (RivFsImage × List Warning) := do
  let (header, warnings) ← parseHeader data
  let (root, more) ← parseRoot data frames header
  return (⟨data, header, root⟩, warnings ++ more)

/-! ### Public API -/

namespace RivFsImage

variable (i : RivFsImage)

def readFileContent (entry : FileEntry) : List UInt8 :=
  slice i.data entry.contentOffset entry.filesize

/-- The non-empty parts between the slashes. -/
def parts (path : Str) : List Str := (path.splitOn '/').filter fun p => !p.isEmpty

/-- The walk down `parts[:-1]` from `cur`, and the search for the file at its end. -/
def findIn (cur : DirEntry) : List Str → Option FileEntry
  | [] => none
  | [target] => cur.files.find? fun f => f.name == target
  | part :: rest => do
      let nxt ← cur.dirs.find? fun sd => sd.name == part
      findIn nxt rest

def find (path : Str) : Option FileEntry := findIn i.root (parts path)

end RivFsImage
end RivOS.RivFsData
