import RivOS.Gen.Map
import RivOS.Lib.CString

/-!
# Fs — The file system switch

`drivers/fs/fs.hpp`, with `driver.hpp`, `file.hpp` and `mountpoint.hpp`.  A `MountPoint*` is an
opaque pointer `μ`, `drivers` gives the driver behind it, and `δ` is whatever the drivers read and
change (disks, buffers, the heap).

`FileSystem::open` searches the mount points with a loop that starts over when nothing matched;
the loop takes fuel, and `none` is a call that has not returned.
-/

namespace RivOS

universe u v

/-! ### Drivers -/

structure File where
  fsData : UInt32
  size : UInt32
  «exists» : Bool
deriving DecidableEq

namespace FileSystemDriver

inductive SuccessCodes where
  | Sucess
  | Error
deriving DecidableEq

end FileSystemDriver

/-- The virtual functions that `FileSystem` calls.  `open` also stores a flag through the pointer
it is given; `read` returns the bytes it stores. -/
structure FileSystemDriver (δ : Type v) where
  «open» : CStr → δ → (File × Bool) × δ
  write : File → List UInt8 → Nat → δ → FileSystemDriver.SuccessCodes × δ
  read : File → Nat → δ → (FileSystemDriver.SuccessCodes × List UInt8) × δ
  close : File → δ → δ

structure GlobalFile (μ : Type u) where
  f : File
  mp : μ
deriving DecidableEq

structure MountPointEntry (μ : Type u) where
  k : CStr
  v : μ

structure MountPointCandidate (μ : Type u) where
  mp : CStr
  conts : μ

/-- `fd_t` is a signed 32-bit integer, `latestFd` a `size_t`. -/
def toFd (n : Nat) : Int := Int.bmod n (2 ^ 32)

structure FileSystem (μ : Type u) (δ : Type v) where
  mountpoints : List (MountPointEntry μ)
  latestFd : Nat
  fdMapping : Map Int (GlobalFile μ)
  drv : δ

namespace FileSystem

variable {μ : Type u} {δ : Type v}

/-! ### Mount points -/

def getFolderNestage (s : CStr) : Nat := s.chars.count slash

/-- The length test is inside the loop: a path shorter than `mp` fails at no index. -/
def mountPointMatches (mp fp : CStr) : Bool :=
  (List.range (strlen mp)).all fun i =>
    !(strlen fp ≥ strlen mp && charAt mp.chars i ≠ charAt fp.chars i)

/-- The mount points `init` registers, in order. -/
def mpCandidates (ext2Root devMp fat32Root bootMp virtKrnMp : μ) : List (MountPointCandidate μ) :=
  [⟨.lit ['/'], ext2Root⟩,
   ⟨.lit ['/', 'd', 'e', 'v', '/'], devMp⟩,
   ⟨.lit ['/'], fat32Root⟩,
   ⟨.lit ['/', 'b', 'o', 'o', 't', '/'], bootMp⟩,
   ⟨.lit ['/', 'k', 'r', 'n', '/', 'v', 'i', 'r', 't', '/'], virtKrnMp⟩]

/-- The table `init` leaves; `none` is the panic when nothing is mounted at `/`. -/
def init (cands : List (MountPointCandidate μ)) (shouldActivate : μ → Bool) :
    Option (List (MountPointEntry μ)) :=
  let mountpoints := (cands.filter fun c => shouldActivate c.conts).map fun c => ⟨c.mp, c.conts⟩
  if mountpoints.any fun e => streq e.k (.lit ['/']) then some mountpoints else none

/-! ### `open` -/

/-- The first loop of `open`, at index `i`.  At the last index `i` becomes `-1` and the increment
makes it `0`, so the loop ends only at a match. -/
def matchLoop (mountpoints : List (MountPointEntry μ)) (fp : CStr) : Nat → Nat → Option Nat
  | 0, _ => none
  | fuel + 1, i =>
      match mountpoints[i]? with
      | none => some i
      | some mp =>
          if mountPointMatches mp.k fp then some i
          else if i = mountpoints.length - 1 then matchLoop mountpoints fp fuel 0
          else matchLoop mountpoints fp fuel (i + 1)

/-- What the second loop of `open` carries. -/
structure Selection (μ : Type u) where
  lastMountpoint : Option μ
  lastFolderNestage : Nat
  lastMpLen : Nat

/-- One turn of the second loop; `lastMpLen` is compared with and never updated. -/
def Selection.next (fp : CStr) (sel : Selection μ) (mp : MountPointEntry μ) : Selection μ :=
  if (getFolderNestage mp.k > sel.lastFolderNestage && mountPointMatches mp.k fp)
      || (getFolderNestage mp.k = sel.lastFolderNestage && mountPointMatches mp.k fp
        && strlen mp.k > sel.lastMpLen) then
    { sel with lastMountpoint := mp.v, lastFolderNestage := getFolderNestage mp.k }
  else sel

/-- The mount point `open` hands the path to, `some none` when it returns without one.  Before
the loops `lastMountpoint` is a block nobody has written (`none`). -/
def route (mountpoints : List (MountPointEntry μ)) (fp : CStr) (fuel : Nat) : Option (Option μ) :=
  if charAt fp.chars 0 ≠ slash then some none else
  match matchLoop mountpoints fp fuel 0 with
  | none => none
  | some i =>
      if i = 2 ^ 32 - 1 then some none else
      let sel := mountpoints.foldl (Selection.next fp) ⟨none, 0, 0⟩
      if sel.lastFolderNestage = 0 then some none else some sel.lastMountpoint

/-- `open`.  The driver's flag is stored into `added.f` and then overwritten by the `File` it
returns.  A failed open is entered in the table too. -/
def «open» (drivers : μ → FileSystemDriver δ) (fuel : Nat) (fs : FileSystem μ δ) (fp : CStr) :
    Option (Int × FileSystem μ δ) :=
  let currentFd := toFd fs.latestFd
  let fs := { fs with latestFd := (fs.latestFd + 1) % 2 ^ 32 }
  match route fs.mountpoints fp fuel with
  | none => none
  | some none => some (0, fs)
  | some (some mp) =>
      let ((f, _), drv) := (drivers mp).open fp fs.drv
      let added : GlobalFile μ := ⟨f, mp⟩
      let fdMapping :=
        if fs.fdMapping.exists currentFd then fs.fdMapping.assign currentFd added
        else some (fs.fdMapping.insert currentFd added)
      fdMapping.map fun fdMapping =>
        (if f.exists then currentFd else 0, { fs with fdMapping, drv })

/-! ### The other calls -/

/-- `close`; `none` is the panic on a descriptor without an entry. -/
def close (drivers : μ → FileSystemDriver δ) (fs : FileSystem μ δ) (fd : Int) :
    Option (FileSystem μ δ) :=
  if fd = 0 then some fs else
  (fs.fdMapping.get fd).map fun f =>
    { fs with fdMapping := fs.fdMapping.rmkey fd, drv := (drivers f.mp).close f.f fs.drv }

/-- `read`, the only one of the three that does not ask whether the descriptor has an entry. -/
def read (drivers : μ → FileSystemDriver δ) (fs : FileSystem μ δ) (fd : Int) (len : Nat) :
    Option ((FileSystemDriver.SuccessCodes × List UInt8) × FileSystem μ δ) :=
  if fd = 0 then some ((.Error, []), fs) else
  (fs.fdMapping.get fd).map fun gf =>
    let (r, drv) := (drivers gf.mp).read gf.f len fs.drv
    (r, { fs with drv })

def write (drivers : μ → FileSystemDriver δ) (fs : FileSystem μ δ) (fd : Int) (conts : List UInt8)
    (len : Nat) : Option (FileSystemDriver.SuccessCodes × FileSystem μ δ) :=
  if fd = 0 then some (.Error, fs) else
  if !fs.fdMapping.exists fd then some (.Error, fs) else
  (fs.fdMapping.get fd).map fun gf =>
    let (r, drv) := (drivers gf.mp).write gf.f conts len fs.drv
    (r, { fs with drv })

def fileSize (fs : FileSystem μ δ) (fd : Int) : Option UInt32 :=
  if fd = 0 then some 0 else
  if !fs.fdMapping.exists fd then some 0 else
  (fs.fdMapping.get fd).map fun gf => gf.f.size

end FileSystem
end RivOS
