import RivOS.Support.Bytes

/-!
# InitRamFs — The image writer

`initramfs/genfs/src/main.cpp`, without its command line.  A directory is what its iterators
enumerate: the regular files in the order `writeFileList` meets them, and the subdirectories in the
order `buildDir` does, each order being any.

A `DirEntry` never sets its `flgs`; they are whatever `junk` holds for the offset of the entry.
Files past 4 GiB are cut where the writer casts to `uint32_t` and `uint16_t`.
-/

namespace RivOS

/-! ### Directory trees -/

/-- A file name without the path before it. -/
abbrev Name := List UInt8

structure FileNode where
  name : Name
  conts : List UInt8
deriving DecidableEq

inductive DirNode where
  | mk (name : Name) (files : List FileNode) (subdirs : List DirNode)

namespace DirNode

def name : DirNode → Name | mk n _ _ => n
def files : DirNode → List FileNode | mk _ fs _ => fs
def subdirs : DirNode → List DirNode | mk _ _ ds => ds

end DirNode

/-! ### Headers and entries -/

namespace Genfs

def MAGIC : List UInt8 := [0x72, 0x69, 0x76, 0x66, 0x73]

def pushU16LE (value : Nat) : List UInt8 := toLE 2 value
def pushU32LE (value : Nat) : List UInt8 := toLE 4 value

/-- `RivFsHeader`, 19 bytes. -/
def rivFsHeader (fphSize fphPos : Nat) (vers : List UInt8) (flgs : Nat) : List UInt8 :=
  MAGIC ++ pushU32LE fphSize ++ pushU32LE fphPos ++ vers ++ pushU32LE flgs

/-- `FilePositionHeader`, 16 bytes. -/
def filePositionHeader (dirHdrAm fAm dirstart fstart flgs : Nat) : List UInt8 :=
  pushU16LE dirHdrAm ++ pushU16LE fAm ++ pushU32LE dirstart ++ pushU32LE fstart ++ pushU32LE flgs

structure BuiltDir where
  dirstart : Nat
  fstart : Nat
  dirHdrAm : Nat
  fAm : Nat

/-- What follows the name in a `DirEntry`; the layout is the one of `FilePositionHeader`. -/
def BuiltDir.latter (sub : BuiltDir) (flgs : Nat) : List UInt8 :=
  filePositionHeader sub.dirHdrAm sub.fAm sub.dirstart sub.fstart flgs

namespace DirEntry

def withName (dn : Name) (sub : BuiltDir) (flgs : Nat) : List UInt8 :=
  pushU32LE dn.length ++ dn ++ sub.latter flgs

def eof : List UInt8 := pushU32LE 0

end DirEntry

namespace FileEntry

def genf (conts : List UInt8) (fn : Name) : List UInt8 :=
  pushU32LE fn.length ++ fn ++ (pushU32LE conts.length ++ conts)

def eof : List UInt8 := pushU32LE 0 ++ pushU32LE 0

end FileEntry

/-! ### Lists -/

/-- The loop of `writeFileList`. -/
def pushFiles (buf : List UInt8) : List FileNode → List UInt8
  | [] => buf
  | f :: fs => pushFiles (buf ++ FileEntry.genf f.conts f.name) fs

/-- The buffer, `fstart`, and the count that `fAmOut` gets. -/
def writeFileList (buf : List UInt8) (files : List FileNode) : List UInt8 × Nat × Nat :=
  (pushFiles buf files ++ FileEntry.eof, buf.length % 2 ^ 32, files.length % 2 ^ 16)

/-- The loop that writes the entries of the subdirectories. -/
def pushDirEntries (junk : Nat → Nat) (buf : List UInt8) : List (Name × BuiltDir) → List UInt8
  | [] => buf
  | p :: ps => pushDirEntries junk (buf ++ DirEntry.withName p.1 p.2 (junk buf.length)) ps

/-- What `buildDir` and `main` do once the subdirectories are written. -/
def closeDir (junk : Nat → Nat) (buf : List UInt8) (fstart fAm : Nat)
    (subdirs : List (Name × BuiltDir)) : List UInt8 × BuiltDir :=
  (pushDirEntries junk buf subdirs ++ DirEntry.eof,
    ⟨buf.length % 2 ^ 32, fstart, subdirs.length % 2 ^ 16, fAm⟩)

mutual

def buildDir (junk : Nat → Nat) (buf : List UInt8) : DirNode → List UInt8 × BuiltDir
  | .mk _ files subdirs =>
      let (buf, fstart, fAm) := writeFileList buf files
      let (buf, pending) := buildSubdirs junk buf subdirs
      closeDir junk buf fstart fAm pending

/-- The loop over the subdirectories, which recurses before anything about them is written. -/
def buildSubdirs (junk : Nat → Nat) (buf : List UInt8) :
    List DirNode → List UInt8 × List (Name × BuiltDir)
  | [] => (buf, [])
  | d :: ds =>
      let (buf, sub) := buildDir junk buf d
      let (buf, subdirs) := buildSubdirs junk buf ds
      (buf, (d.name, sub) :: subdirs)

end

/-! ### The image -/

/-- `sizeof(RivFsHeader)` and `sizeof(FilePositionHeader)`. -/
def headerSize : Nat := 19
def fphSize : Nat := 16

/-- `main` writes the root behind room for the two headers, and then the headers. -/
def main (junk : Nat → Nat) (inputDir : DirNode) : List UInt8 :=
  let buf := List.replicate (headerSize + fphSize) 0
  let (buf, rootFstart, rootFAm) := writeFileList buf inputDir.files
  let (buf, rootSubdirs) := buildSubdirs junk buf inputDir.subdirs
  let (buf, root) := closeDir junk buf rootFstart rootFAm rootSubdirs
  let hdr := rivFsHeader fphSize headerSize [0, 0] 1
  let fph := filePositionHeader root.dirHdrAm root.fAm root.dirstart root.fstart 0
  hdr ++ fph ++ buf.drop (headerSize + fphSize)

end Genfs
end RivOS
