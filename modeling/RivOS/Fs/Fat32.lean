import RivOS.Fs.FileSystem
import RivOS.Lib.Case
import RivOS.Support.Buffers
import RivOS.Support.Loops
import RivOS.Support.Memory

/-!
# Fs — FAT32

`drivers/fs/FAT32/fat.hpp`.  `Disk` is what `Storage::readSector` reads, and `bootSector` is its
sector 0, as `getPriority` leaves it.  The heap is an `Allocator`, and a pointer into a path is the
list of the characters from there to the NUL.

Sectors are read into buffers of any length, and following the links of the FAT may never end, so a
run can be stuck: `undefined` is an access outside a buffer or a division by zero, `running` a run
whose turns are used up.

`boot/fs/fs.c` is an older copy of this driver.  What the two have in common takes the layout of a
directory entry, or the function that finds an entry, as a parameter.
-/

namespace RivOS

/-- Byte `k` of sector `s`. -/
abbrev Disk := Nat → Nat → UInt8

/-- `Storage::readSector` of 256 words. -/
def Storage.readSector (disk : Disk) (sector : Nat) : List UInt8 :=
  (List.range 512).map (disk sector)

/-- What `Storage::readSector(buffer + off, len, …)` stores, `len` a number of words. -/
def Storage.readSectorAccess (size off len : Nat) : Access := ⟨size, off, 2 * min 256 len⟩

namespace Fat32

inductive Stuck where
  | undefined
  | running
deriving DecidableEq

/-- The number in the `k` bytes at `off`. -/
def numAt (k off : Nat) (bs : List UInt8) : Nat := ofLE ((bs.drop off).take k)

/-! ### The boot sector -/

namespace BootSector

variable (disk : Disk)

def bytesPerSector : Nat := numAt 2 11 (Storage.readSector disk 0)
def sectorsPerCluster : Nat := numAt 1 13 (Storage.readSector disk 0)
def reservedSectors : Nat := numAt 2 14 (Storage.readSector disk 0)
def fatsOnMedia : Nat := numAt 1 16 (Storage.readSector disk 0)
def sectorsPerFat32 : Nat := numAt 4 36 (Storage.readSector disk 0)
def rootDirClusterNum : Nat := numAt 4 44 (Storage.readSector disk 0)

end BootSector

open BootSector

/-- As `init` computes it. -/
def dataRegionStart (disk : Disk) : Nat :=
  (reservedSectors disk + fatsOnMedia disk * sectorsPerFat32 disk) % 2 ^ 32

/-- The product of 16 and 8 bits needs no more than an `int`. -/
def bytesPerCluster (disk : Disk) : Nat := bytesPerSector disk * sectorsPerCluster disk

/-! ### Directory entries -/

structure DirEntry where
  name : List UInt8
  ext : List UInt8
  attributes : UInt8
  firstClusterHigh : Nat
  firstClusterLow : Nat
  filesize : Nat
deriving DecidableEq

/-- The size of a packed `DirEntry`, and the offsets in which the two drivers differ. -/
structure Layout where
  sizeof : Nat
  firstClusterHigh : Nat
  firstClusterLow : Nat
  filesize : Nat

def layout : Layout := ⟨32, 20, 26, 28⟩

namespace DirEntry

def ofBytes (l : Layout) (bs : List UInt8) : DirEntry where
  name := bs.take 8
  ext := (bs.drop 8).take 3
  attributes := charAt bs 11
  firstClusterHigh := numAt 2 l.firstClusterHigh bs
  firstClusterLow := numAt 2 l.firstClusterLow bs
  filesize := numAt 4 l.filesize bs

def isDirectory (e : DirEntry) : Bool := e.attributes &&& 0x10 != 0

end DirEntry

def clusterOf (e : DirEntry) : Nat := e.firstClusterHigh <<< 16 ||| e.firstClusterLow

/-- The entries of one cluster. -/
def entriesIn (l : Layout) (disk : Disk) (clusterBuf : List UInt8) : List DirEntry :=
  (List.range (bytesPerCluster disk / l.sizeof)).map fun i =>
    .ofBytes l (clusterBuf.drop (i * l.sizeof))

/-! ### Clusters -/

/-- `cluster` is less than `2 ^ 32`, and `cluster - 2` wraps around. -/
def clusterToSector (disk : Disk) (cluster : Nat) : Nat :=
  (dataRegionStart disk + (cluster + 2 ^ 32 - 2) * sectorsPerCluster disk) % 2 ^ 32

/-- The sector of the FAT is read into a buffer of 256 words whatever `bytesPerSector` is. -/
def readFatEntry (disk : Disk) (cluster : Nat) : Except Stuck Nat :=
  if bytesPerSector disk = 0 then .error .undefined else
  let fatOffset := cluster * 4 % 2 ^ 32
  let fatSector := (reservedSectors disk + fatOffset / bytesPerSector disk) % 2 ^ 32
  let entryOffsetInSector := fatOffset % bytesPerSector disk
  let buf := Storage.readSector disk fatSector
  if entryOffsetInSector + 4 ≤ buf.length then .ok (numAt 4 entryOffsetInSector buf &&& 0x0FFFFFFF)
  else .error .undefined

/-- `bs` stored at `off` in a buffer. -/
def putAt (off : Nat) (bs buf : List UInt8) : Except Stuck (List UInt8) :=
  if off + bs.length ≤ buf.length then .ok (buf.take off ++ bs ++ buf.drop (off + bs.length))
  else .error .undefined

def readCluster (disk : Disk) (cluster : Nat) (buffer : List UInt8) : Except Stuck (List UInt8) :=
  let firstSector := clusterToSector disk cluster
  (List.range (sectorsPerCluster disk)).foldlM (fun buffer s =>
    putAt (s * 512) (Storage.readSector disk ((firstSector + s) % 2 ^ 32)) buffer) buffer

/-! ### Paths -/

def backslash : UInt8 := 92

def dot : UInt8 := 46

def isSep (c : UInt8) : Bool := c == slash || c == backslash

def isRootPath (fp : List UInt8) : Bool := fp.dropWhile isSep = []

/-- A name in a field of `n` characters, filled up with spaces. -/
def field (n : Nat) (s : List UInt8) : List UInt8 := s ++ List.replicate (n - s.length) 32

/-- What `makeFatName` leaves in `outbuf`, and whether it comes to its end: it stops at the ninth
character of a name and at the fourth of an extension. -/
def fillFatName (normalName : List UInt8) : List UInt8 × Bool :=
  let name := normalName.takeWhile fun c => !isSep c && c != dot
  let rest := normalName.drop name.length
  if 8 < name.length then (field 8 (name.take 8) ++ field 3 [], false)
  else if name = [] then (field 8 [] ++ field 3 [], false)
  else
    let ext := if charAt rest 0 = dot then (rest.drop 1).takeWhile fun c => !isSep c else []
    if 3 < ext.length then (field 8 name ++ field 3 (ext.take 3), false)
    else (strToUpper (field 8 name ++ field 3 ext), true)

def makeFatName (normalName : List UInt8) : Option (List UInt8) :=
  let (outbuf, done) := fillFatName normalName
  if done then some outbuf else none

/-- The component, and the path after it; `none` also for a component that does not fit in
`out`. -/
def splitNextPathComponent (path : List UInt8) : Option (List UInt8 × List UInt8) :=
  let path := path.dropWhile isSep
  if path = [] then none
  else
    let out := path.takeWhile fun c => !isSep c
    if 63 < out.length then none else some (out, path.drop out.length)

/-! ### Looking up -/

/-- The entries of one cluster; `none` goes on to the next, `some none` is the end marker. -/
def scan (fatName : List UInt8) : List DirEntry → Option (Option DirEntry)
  | [] => none
  | e :: entries =>
      if charAt e.name 0 = 0x00 then some none
      else if charAt e.name 0 = 0xE5 then scan fatName entries
      else if e.attributes &&& 0x0F = 0x0F then scan fatName entries
      else if streqi (strToUpper (e.name ++ e.ext)) fatName then some (some e)
      else scan fatName entries

/-- One turn of the loop of `findDirEntryInDir`; the state is `currentCluster` and what is in
`clusterBuf`. -/
def searchTurn (l : Layout) (disk : Disk) (fatName : List UInt8) (s : Nat × List UInt8) :
    Except Stuck ((Nat × List UInt8) ⊕ (Option DirEntry × List UInt8)) := do
  let clusterBuf ← readCluster disk s.1 s.2
  match scan fatName (entriesIn l disk clusterBuf) with
  | some found => return .inr (found, clusterBuf)
  | none =>
      let next ← readFatEntry disk s.1
      if 0x0FFFFFF8 ≤ next then return .inr (none, clusterBuf) else return .inl (next, clusterBuf)

def search (l : Layout) (disk : Disk) (fatName : List UInt8) (fuel startCluster : Nat)
    (clusterBuf : List UInt8) : Except Stuck (Option DirEntry × List UInt8) :=
  turns (searchTurn l disk fatName) .running fuel (startCluster, clusterBuf)

section Kernel

variable {σ : Type} (al : Allocator σ) (disk : Disk) (fuel : Nat)

def findDirEntryInDir (startCluster : Nat) (filename : List UInt8) (s : σ) :
    Except Stuck (Option DirEntry × σ) :=
  match makeFatName filename with
  | none => .ok (none, s)
  | some fatName =>
      match al.alloc (bytesPerCluster disk) s with
      | (none, s) => .ok (none, s)
      | (some clusterBuf, s) => do
          let (found, bytes) ← search layout disk fatName fuel startCluster clusterBuf.bytes
          return (found, al.free ⟨clusterBuf.addr, bytes⟩ s)

end Kernel

/-- One turn of the loop of `resolvePath`; the state is `currentDirCluster`, `p` and the heap. -/
def resolveTurn {σ : Type} (find : Nat → List UInt8 → σ → Except Stuck (Option DirEntry × σ))
    (t : Nat × List UInt8 × σ) : Except Stuck ((Nat × List UInt8 × σ) ⊕ (Option DirEntry × σ)) :=
  match splitNextPathComponent t.2.1 with
  | none => .ok (.inr (none, t.2.2))
  | some (component, p) => do
      let (found, s) ← find t.1 component t.2.2
      match found with
      | none => return .inr (none, s)
      | some found =>
          let p := p.dropWhile isSep
          if p = [] then return .inr (some found, s)
          else if !found.isDirectory then return .inr (none, s)
          else return .inl (clusterOf found, p, s)

/-- `resolvePath`, for a driver that looks up with `find`. -/
def resolveWith {σ : Type} (find : Nat → List UInt8 → σ → Except Stuck (Option DirEntry × σ))
    (disk : Disk) (fp : List UInt8) (s : σ) : Except Stuck (Option DirEntry × σ) :=
  if fp = [] then .ok (none, s)
  else loop (resolveTurn find) .running (fun t => t.2.1.length) (rootDirClusterNum disk, fp, s)

/-! ### Files -/

namespace FileData

/-- The size of the heap block behind `fsData`. -/
def sizeof : Nat := 8

def cluster (fd : Buffer) : Nat := numAt 4 0 fd.bytes
def isDirectory (fd : Buffer) : Bool := charAt fd.bytes 4 != 0

def put (fd : Buffer) (cluster : Nat) (isDirectory : Bool) : Buffer :=
  { fd with bytes := toLE 4 cluster ++ isDirectory.toUInt8 :: fd.bytes.drop 5 }

end FileData

structure File where
  fsData : Option Buffer := none
  size : Nat := 0
  «exists» : Bool := false

/-- A read in progress; `obuf` is the memory that the caller's buffer is in. -/
structure Reading where
  bytesRemaining : Nat
  bytesWritten : Nat
  currentCluster : Nat
  clusterBuf : List UInt8
  obuf : Mem

section Kernel

variable {σ : Type} (al : Allocator σ) (disk : Disk) (fuel : Nat)

def resolvePath (fp : List UInt8) (s : σ) : Except Stuck (Option DirEntry × σ) :=
  resolveWith (findDirEntryInDir al disk fuel) disk fp s

/-- The flag is `*fileExistsObuf`, before and after. -/
def «open» (fp : CStr) (fileExistsObuf : Bool) (s : σ) : Except Stuck ((File × Bool) × σ) :=
  match al.alloc FileData.sizeof s with
  | (none, s) => .ok (({}, fileExistsObuf), s)
  | (some fd, s) =>
      if isRootPath fp.chars then
        .ok ((⟨some (FileData.put fd (rootDirClusterNum disk) true), 0, true⟩, true), s)
      else do
        let (direntry, s) ← resolvePath al disk fuel fp.chars s
        match direntry with
        | none => return ((⟨some fd, 0, false⟩, false), s)
        | some e => return ((⟨some (FileData.put fd (clusterOf e) e.isDirectory), e.filesize, true⟩,
            true), s)

def close (f : File) (s : σ) : σ :=
  match f.fsData with
  | none => s
  | some fd => al.free fd s

/-- One turn of the loop of `read`, which stores at `obuf`. -/
def readTurn (obuf : Nat) (t : Reading) : Except Stuck (Reading ⊕ Reading) :=
  if t.bytesRemaining = 0 then .ok (.inr t)
  else do
    let clusterBuf ← readCluster disk t.currentCluster t.clusterBuf
    let chunk := min t.bytesRemaining (bytesPerCluster disk)
    let t := { t with
      bytesRemaining := t.bytesRemaining - chunk
      bytesWritten := t.bytesWritten + chunk
      clusterBuf := clusterBuf
      obuf := store t.obuf (obuf + t.bytesWritten) (clusterBuf.take chunk) }
    if t.bytesRemaining = 0 then return .inr t
    else
      let next ← readFatEntry disk t.currentCluster
      if 0x0FFFFFF8 ≤ next then return .inr t else return .inl { t with currentCluster := next }

def read (f : File) (obuf len : Nat) (m : Mem) (s : σ) :
    Except Stuck ((FileSystemDriver.SuccessCodes × Mem) × σ) :=
  match f.fsData with
  | none => .ok ((.Error, m), s)
  | some fd =>
      if FileData.isDirectory fd then .ok ((.Error, m), s)
      else
        match al.alloc (bytesPerCluster disk) s with
        | (none, s) => .ok ((.Error, m), s)
        | (some clusterBuf, s) => do
            let t ← turns (readTurn disk obuf) .running fuel
              ⟨min len f.size, 0, FileData.cluster fd, clusterBuf.bytes, m⟩
            return ((.Sucess, t.obuf), al.free ⟨clusterBuf.addr, t.clusterBuf⟩ s)

end Kernel

end Fat32

end RivOS
