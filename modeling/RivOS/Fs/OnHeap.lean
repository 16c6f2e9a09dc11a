import RivOS.Fs.BootFs
import RivOS.Fs.Fat32Lookup
import RivOS.Lib.Pointer

/-!
# Fs — Open files and the heap

`FileSystem::open` and `close` (`drivers/fs/fs.hpp`) with what they ask of the heap, and the five
drivers behind them.  A path is a pointer, what is in memory from its first character on: a driver
may be handed one that is shorter than the name it cuts off.

A field of a `File` is `none` until somebody sets it, and to use it before that is undefined.  In
`Except (Option Halt)` a call that stops with `none` has not returned.

* `HeapFs.open`, `HeapFs.close`: the calls, on a table whose array is a block.
* `HeapFs.open_erase`, `HeapFs.close_erase`: but for the heap, the two are those of `FileSystem`.
-/

namespace RivOS

/-- What a `void* fsData` points to. -/
inductive FsData where
  | null
  | block (fsData : Buffer)
  /-- A pointer to a copy of the path, and the copy. -/
  | named (fsData fp : Buffer)

structure RawFile where
  fsData : Option FsData := none
  size : Option Nat := none
  «exists» : Option Bool := none

/-- The blocks behind a file. -/
def RawFile.buffers (f : RawFile) : List Buffer :=
  match f.fsData with
  | none | some .null => []
  | some (.block fsData) => [fsData]
  | some (.named fsData fp) => [fp, fsData]

/-- The string at `fp + n`. -/
def strAt (fp : Ptr) (n : Nat) : Except (Option Halt) CStr :=
  ((fp.add n).map CStr.ofBuffer).mapError some

/-- What is mounted. -/
inductive Mp where
  | ext2Root
  | dev
  | fat32Root
  | boot
  | virtKrn
deriving DecidableEq

/-! ### The drivers -/

section Drivers

variable {σ : Type} (al : Allocator σ)

/-- `FsData` with a copy of `fp`.  A string that is copied lies beside its copy in memory. -/
def copyFp (fp : CStr) (s : σ) : Except (Option Halt) (FsData × σ) :=
  match al.alloc 4 s with
  | (none, _) => .error (some .undefined)
  | (some fsData, s) =>
      match al.alloc (strlen fp + 1) s with
      | (none, _) => .error (some .undefined)
      | (some copy, s) =>
          if 2 ^ 31 < strlen fp + 1 then .error (some .undefined)
          else .ok (.named { fsData with bytes := toLE 4 copy.addr }
            { copy with bytes := fp.ptr }, s)

/-- `free(((FsData*) f.fsData)->fp)`, then `free(f.fsData)`. -/
def freeNamed (f : RawFile) (s : σ) : Except (Option Halt) σ :=
  match f.fsData with
  | some (.named fsData fp) => .ok (al.free fsData (al.free fp s))
  | _ => .error (some .undefined)

namespace DevMpDriver

def mappings : List CStr :=
  [.lit ['s', 't', 'd', 'o', 'u', 't'], .lit ['s', 't', 'd', 'i', 'n'],
    .lit ['s', 't', 'd', 'l', 'o', 'g']]

def «open» (fp : Ptr) (s : σ) : Except (Option Halt) (RawFile × σ) := do
  let fp ← strAt fp 5
  let (fsData, s) ← copyFp al fp s
  return (⟨some fsData, some 0, some (mappings.any (streq · fp))⟩, s)

end DevMpDriver

namespace VirtKrnDriver

def mapping : List CStr := [.lit ['f', 'u', 'n', 'c', '.', 'r', 'a', 'p']]

def «open» (fp : Ptr) (s : σ) : Except (Option Halt) (RawFile × σ) := do
  let fp ← strAt fp 10
  if !mapping.any (streq · fp) then return ({ «exists» := some false }, s)
  else
    let (fsData, s) ← copyFp al fp s
    return ({ fsData := some fsData, «exists» := some true }, s)

end VirtKrnDriver

/-- The driver of `drivers/fs/FAT32/fat.hpp`, whose `File` has every field set.  The flag it stores is
in the `File` that is overwritten with the one it returns. -/
def fat32Open (disk : Disk) (fuel : Nat) (fp : Ptr) (s : σ) :
    Except (Option Halt) (RawFile × σ) :=
  match Fat32.open al disk fuel (CStr.ofBuffer fp) false s with
  | .error .undefined => .error (some .undefined)
  | .error .running => .error none
  | .ok ((f, _), s) =>
      .ok (⟨some (f.fsData.elim .null .block), some f.size, some f.exists⟩, s)

def fat32Close (f : RawFile) (s : σ) : Except (Option Halt) σ :=
  match f.fsData with
  | some .null => .ok (Fat32.close al {} s)
  | some (.block fsData) => .ok (Fat32.close al { fsData := some fsData } s)
  | _ => .error (some .undefined)

/-- The driver of `drivers/fs/boot/boot.hpp`, which looks behind `/boot/` only. -/
def bootOpen (fp : Ptr) (s : σ) : Except (Option Halt) (RawFile × σ) := do
  let fp ← strAt fp 6
  let ((f, _), s) ← BootFileSystem.open al {}
    ⟨ascii ['/', 'b', 'o', 'o', 't', '/'] ++ fp.chars, by simpa [ascii] using fp.nulFree⟩ false s
  match f.fsData with
  | none => return ({ «exists» := some false }, s)
  | some fsData => return (⟨some (.block fsData), some f.size, some true⟩, s)

def bootClose (f : RawFile) (s : σ) : Except (Option Halt) σ :=
  match f.fsData with
  | some (.block fsData) => .ok (BootFileSystem.close al { fsData := some fsData } s)
  | _ => .error (some .undefined)

namespace Ext2

open Fat32 (numAt putAt)

variable (disk : Disk)

def totalBlocks : Nat := numAt 4 4 (Storage.readSector disk 2)
def blocksInBlockGroup : Nat := numAt 4 32 (Storage.readSector disk 2)

/-- `1024 << suprBlock->low.blockSize`. -/
def blockSize : Except (Option Halt) Nat :=
  let n := numAt 4 24 (Storage.readSector disk 2)
  if 32 ≤ n then .error (some .undefined) else .ok (1024 * 2 ^ n % 2 ^ 32)

def blockToSector (block : Nat) : Except (Option Halt) Nat := do
  let blockSize ← blockSize disk
  if blockSize % 512 ≠ 0 then .error (some (.panic "BlockSize did not match sector_size"))
  else return block * (blockSize / 512) % 2 ^ 32

/-- The block group descriptors are read, and given back; nothing is done with the path. -/
def «open» (_fp : Ptr) (s : σ) : Except (Option Halt) (RawFile × σ) := do
  let blockSize ← blockSize disk
  let bgdtStartSector ← blockToSector disk (if blockSize = 1024 then 2 else 1)
  if blocksInBlockGroup disk = 0 then .error (some .undefined)
  else
    let amountOfBgdEntries := (totalBlocks disk + blocksInBlockGroup disk - 1) % 2 ^ 32 /
      blocksInBlockGroup disk
    let bytes := amountOfBgdEntries * 32 % 2 ^ 32
    match al.alloc bytes s with
    | (none, _) => .error (some .undefined)
    | (some bgdtBuffer, s) =>
        match (List.range ((bytes + 511) / 512)).foldlM (fun buf i =>
            putAt (i * 512) (Storage.readSector disk ((bgdtStartSector + i) % 2 ^ 32)) buf)
            bgdtBuffer.bytes with
        | .error _ => .error (some .undefined)
        | .ok buf => return ({}, al.free { bgdtBuffer with bytes := buf } s)

/-- `free(f.fsData)`, of a `File` that has none. -/
def close (f : RawFile) (s : σ) : Except (Option Halt) σ :=
  match f.fsData with
  | some (.block fsData) => .ok (al.free fsData s)
  | _ => .error (some .undefined)

end Ext2

def driverOpen (disk : Disk) (fuel : Nat) : Mp → Ptr → σ → Except (Option Halt) (RawFile × σ)
  | .ext2Root => Ext2.open al disk
  | .dev => DevMpDriver.open al
  | .fat32Root => fat32Open al disk fuel
  | .boot => bootOpen al
  | .virtKrn => VirtKrnDriver.open al

def driverClose : Mp → RawFile → σ → Except (Option Halt) σ
  | .ext2Root => Ext2.close al
  | .dev => freeNamed al
  | .fat32Root => fat32Close al
  | .boot => bootClose al
  | .virtKrn => freeNamed al

end Drivers

/-! ### What a driver takes and gives back -/

section Holding

open KernelAllocator (Holding buffers tenancy_lawful)

variable {r : HeapRegion} {m m' : Mem} {held : List Buffer} {disk : Disk} {fuel : Nat} {mp : Mp}
  {fp : Ptr} {f : RawFile}

theorem copyFp_holding {fp : CStr} {d : FsData} (h : Holding r m held)
    (hc : copyFp (buffers r) fp m = .ok (d, m')) :
    ∃ fsData copy, d = .named fsData copy ∧ Holding r m' (copy :: fsData :: held) := by
  rw [copyFp] at hc
  split at hc
  · cases hc
  next fsData m₁ ha =>
    obtain ⟨-, hlen, h₁⟩ := h.alloc (by decide) ha
    -- the pointer that is put there is to the second block
    have hput : ∀ p, Holding r m₁ ({ fsData with bytes := toLE 4 p } :: held) := fun p =>
      h₁.put rfl (by rw [length_toLE, hlen])
    split at hc
    · cases hc
    next copy m₂ hb =>
      split at hc
      · cases hc
      next hsmall =>
        cases hc
        obtain ⟨-, hlen', h₂⟩ := (hput copy.addr).alloc (Nat.le_of_not_lt hsmall) hb
        have hptr : fp.ptr.length = copy.bytes.length := List.length_append.trans hlen'.symm
        exact ⟨_, _, rfl, h₂.put rfl hptr⟩

/-- Every `File` of this driver has its block. -/
theorem fat32_open_holding {fp : CStr} {flag flag' : Bool} {f : Fat32.File} (h : Holding r m held)
    (ho : Fat32.open (buffers r) disk fuel fp flag m = .ok ((f, flag'), m')) :
    Holding r m' (f.fsData.toList ++ held) := by
  rw [Fat32.open] at ho
  split at ho
  next m₁ ha =>
    cases ho
    exact h.refused (by decide) ha
  next fd m₁ ha =>
    obtain ⟨-, hlen, h₁⟩ := h.alloc (by decide) ha
    have hput : ∀ c b, (Fat32.FileData.put fd c b).bytes.length = fd.bytes.length := by
      intro c b
      rw [Fat32.FileData.put, List.length_append, List.length_cons, List.length_drop, length_toLE,
        hlen, Fat32.FileData.sizeof]
    split at ho
    · cases ho
      exact h₁.put rfl (hput _ _)
    · obtain ⟨⟨direntry, m₂⟩, hresolve, ho⟩ := bind_eq_ok.mp ho
      have h₂ : Holding r m₂ (fd :: held) := by
        obtain ⟨owner, ht, hown⟩ := h₁.tenancy
        exact ⟨h₁.distinct, owner, Fat32.resolvePath_keeps (tenancy_lawful r owner)
          (Fat32.bytesPerCluster_le r disk) ht hresolve, hown⟩
      cases direntry with
      | none =>
          cases ho
          exact h₂
      | some e =>
          cases ho
          exact h₂.put rfl (hput _ _)

/-- The `File` of a path that is refused has no block. -/
theorem boot_open_holding {fp : CStr} {flag flag' : Bool} {f : Fat32.File} (h : Holding r m held)
    (ho : BootFileSystem.open (buffers r) {} fp flag m = .ok ((f, flag'), m')) :
    Holding r m' (f.fsData.toList ++ held) := by
  rw [BootFileSystem.open] at ho
  split at ho
  · cases ho
    exact h
  split at ho
  · cases ho
    exact h
  split at ho
  · cases ho
    exact h
  split at ho
  · cases ho
  next fsData m₁ ha =>
    cases ho
    obtain ⟨-, hlen, h₁⟩ := h.alloc (by decide) ha
    refine h₁.put rfl ?_
    rw [BootFileSystem.FsData.put, List.length_append, List.length_drop, length_toLE, hlen,
      BootFileSystem.FsData.sizeof]

/-- A driver that says whether the file exists hands over what it has taken. -/
theorem driverOpen_holding {found : Bool} (h : Holding r m held)
    (ho : driverOpen (buffers r) disk fuel mp fp m = .ok (f, m')) (hfound : f.exists = some found) :
    Holding r m' (f.buffers ++ held) := by
  cases mp with
  | ext2Root =>
      -- no field of the `File` is set
      simp only [driverOpen, Ext2.open] at ho
      obtain ⟨_, -, ho⟩ := bind_eq_ok.mp ho
      obtain ⟨_, -, ho⟩ := bind_eq_ok.mp ho
      split at ho
      · cases ho
      split at ho
      · cases ho
      split at ho <;> cases ho
      cases hfound
  | dev =>
      obtain ⟨_, -, ho⟩ := bind_eq_ok.mp ho
      obtain ⟨⟨_, m₁⟩, hc, ho⟩ := bind_eq_ok.mp ho
      cases ho
      obtain ⟨fsData, copy, rfl, h₁⟩ := copyFp_holding h hc
      exact h₁
  | fat32Root =>
      simp only [driverOpen, fat32Open] at ho
      split at ho
      · cases ho
      · cases ho
      next f _ m₁ hopen =>
        cases ho
        have h₁ := fat32_open_holding h hopen
        cases hf : f.fsData <;> rw [hf] at h₁ <;> exact h₁
  | boot =>
      obtain ⟨_, -, ho⟩ := bind_eq_ok.mp ho
      obtain ⟨⟨⟨f, flag⟩, m₁⟩, hopen, ho⟩ := bind_eq_ok.mp ho
      have h₁ := boot_open_holding h hopen
      dsimp only at ho
      split at ho <;> next hf => 
        cases ho
        rw [hf] at h₁
        exact h₁
  | virtKrn =>
      obtain ⟨_, -, ho⟩ := bind_eq_ok.mp ho
      split at ho
      · cases ho
        exact h
      · obtain ⟨⟨_, m₁⟩, hc, ho⟩ := bind_eq_ok.mp ho
        cases ho
        obtain ⟨fsData, copy, rfl, h₁⟩ := copyFp_holding h hc
        exact h₁

theorem freeNamed_holding (h : Holding r m (f.buffers ++ held))
    (hc : freeNamed (buffers r) f m = .ok m') : Holding r m' held := by
  rw [freeNamed] at hc
  split at hc
  next fsData copy hf =>
    cases hc
    rw [RawFile.buffers, hf] at h
    exact h.free.free
  · cases hc

/-- What a driver gives back is what it has handed over. -/
theorem driverClose_holding (h : Holding r m (f.buffers ++ held))
    (hc : driverClose (buffers r) mp f m = .ok m') : Holding r m' held := by
  have hblock : ∀ {fsData}, f.fsData = some (.block fsData) →
      Holding r ((buffers r).free fsData m) held := by
    intro fsData hf
    rw [RawFile.buffers, hf] at h
    exact h.free
  cases mp with
  | dev | virtKrn => exact freeNamed_holding h hc
  | ext2Root =>
      simp only [driverClose, Ext2.close] at hc
      split at hc <;> cases hc
      exact hblock ‹_›
  | boot =>
      simp only [driverClose, bootClose] at hc
      split at hc <;> cases hc
      exact hblock ‹_›
  | fat32Root =>
      simp only [driverClose, fat32Close] at hc
      split at hc
      next hf =>
        cases hc
        rw [RawFile.buffers, hf] at h
        exact h
      next hf =>
        cases hc
        exact hblock hf
      · cases hc

end Holding

/-! ### The table -/

/-- `GlobalFile`. -/
structure HeapFile where
  f : RawFile
  mp : Mp

/-- `arr` and `capacity` are those of the vector behind `fdMapping`; its elements are in
`fdMapping`. -/
structure HeapFs (σ : Type) where
  mountpoints : List (MountPointEntry Mp)
  latestFd : Nat
  fdMapping : Map Int HeapFile
  arr : Buffer
  capacity : Nat
  heap : σ

namespace HeapFs

open FileSystem (route)

variable {σ : Type} (al : Allocator σ)

/-- `sizeof(MountPoint)`, a virtual table and a driver. -/
def sizeofMountPoint : Nat := 8

/-- `sizeof(MapEntry<fd_t, GlobalFile>)`. -/
def entrySize : Nat := 20

/-- A full vector moves to an array twice as large. -/
def grow (t : HeapFs σ) : Except (Option Halt) (HeapFs σ) :=
  if t.fdMapping.entries.length ≥ t.capacity then
    match al.alloc (t.capacity * 2 * entrySize % 2 ^ 32) t.heap with
    | (none, _) => .error (some (.panic "New array allocation failed in Vector."))
    | (some newArr, heap) => .ok { t with
        arr := newArr
        capacity := t.capacity * 2 % 2 ^ 32
        heap := al.free t.arr heap }
  else .ok t

/-- The entry that `open` makes for `currentFd`. -/
def enter (currentFd : Int) (added : HeapFile) (t : HeapFs σ) :
    Except (Option Halt) (HeapFs σ) := do
  if t.fdMapping.exists currentFd then
    match t.fdMapping.assign currentFd added with
    | none => .error (some (.panic valOnErr))
    | some fdMapping => return { t with fdMapping }
  else
    let t ← grow al t
    return { t with fdMapping := t.fdMapping.insert currentFd added }

/-- The block for a `MountPoint` is taken before the path is looked at, and the pointer to it is
lost. -/
def «open» (disk : Disk) (fuel : Nat) (t : HeapFs σ) (fp : Ptr) :
    Except (Option Halt) (Int × HeapFs σ) :=
  let currentFd := toFd t.latestFd
  let t := { t with
    latestFd := (t.latestFd + 1) % 2 ^ 32
    heap := (al.alloc sizeofMountPoint t.heap).2 }
  match route t.mountpoints (CStr.ofBuffer fp) fuel with
  | none => .error none
  | some none => .ok (0, t)
  | some (some mp) => do
      let (f, heap) ← driverOpen al disk fuel mp fp t.heap
      let t ← enter al currentFd ⟨f, mp⟩ { t with heap }
      match f.exists with
      | none => .error (some .undefined)
      | some found => return (if found then currentFd else 0, t)

def close (t : HeapFs σ) (fd : Int) : Except (Option Halt) (HeapFs σ) :=
  if fd = 0 then .ok t
  else
    match t.fdMapping.get fd with
    | none => .error (some (.panic valOnErr))
    | some f => do
        let heap ← driverClose al f.mp f.f t.heap
        return { t with fdMapping := t.fdMapping.rmkey fd, heap }

/-! ### Without the heap -/

/-- `fsData` as a pointer. -/
def fsDataPtr (f : RawFile) : Nat :=
  match f.fsData with
  | none | some .null => 0
  | some (.block fsData) | some (.named fsData _) => fsData.addr

def file (f : RawFile) : File where
  fsData := UInt32.ofNat (fsDataPtr f)
  size := UInt32.ofNat (f.size.getD 0)
  «exists» := f.exists.getD false

/-- The table as `FileSystem` has it. -/
def erase (t : HeapFs σ) : FileSystem Mp Unit where
  mountpoints := t.mountpoints
  latestFd := t.latestFd
  fdMapping := ⟨t.fdMapping.entries.map fun e => (e.1, ⟨file e.2.f, e.2.mp⟩)⟩
  drv := ()

/-- A driver whose `open` returns `f`. -/
def returning (f : File) : FileSystemDriver Unit where
  «open» _ _ := ((f, f.exists), ())
  write _ _ _ _ := (.Error, ())
  read _ _ _ := ((.Error, []), ())
  close _ _ := ()

variable {al} {t u : HeapFs σ} {disk : Disk} {fuel : Nat} {fp : Ptr} {fd k : Int}

theorem exists_erase (t : HeapFs σ) (k : Int) :
    t.erase.fdMapping.exists k = t.fdMapping.exists k := by
  rw [Map.exists, Map.exists, erase, List.any_map]
  rfl

theorem get_erase (t : HeapFs σ) (k : Int) :
    t.erase.fdMapping.get k = (t.fdMapping.get k).map fun e => ⟨file e.f, e.mp⟩ := by
  rw [Map.get_eq_find, Map.get_eq_find, AssocVec.find, AssocVec.find, erase, List.find?_map,
    Option.map_map, Option.map_map]
  rfl

theorem rmkey_erase (t : HeapFs σ) (k : Int) :
    t.erase.fdMapping.rmkey k = (erase { t with fdMapping := t.fdMapping.rmkey k }).fdMapping := by
  refine Map.ext ?_
  simp only [erase, Map.rmkey_entries, AssocVec.erase, List.eraseP_map]
  rfl

/-- An entry is made where `FileSystem` makes one. -/
theorem enter_erase {added : HeapFile} (h : enter al k added t = .ok u) :
    u.erase.mountpoints = t.erase.mountpoints ∧ u.erase.latestFd = t.erase.latestFd ∧
      (if t.erase.fdMapping.exists k then
          t.erase.fdMapping.assign k ⟨file added.f, added.mp⟩
        else some (t.erase.fdMapping.insert k ⟨file added.f, added.mp⟩)) =
          some u.erase.fdMapping := by
  rw [enter] at h
  split at h
  next hx =>
    rw [exists_erase, if_pos hx, Map.assign, get_erase]
    rw [Map.assign] at h
    cases hg : t.fdMapping.get k with
    | none =>
        rw [hg] at h
        cases h
    | some g =>
        rw [hg] at h
        cases h
        exact ⟨rfl, rfl, rfl⟩
  next hx =>
    obtain ⟨t', hgrow, h⟩ := bind_eq_ok.mp h
    cases h
    have hsame : t'.mountpoints = t.mountpoints ∧ t'.latestFd = t.latestFd ∧
        t'.fdMapping = t.fdMapping := by
      rw [grow] at hgrow
      split at hgrow
      · split at hgrow <;> cases hgrow
        exact ⟨rfl, rfl, rfl⟩
      · cases hgrow
        exact ⟨rfl, rfl, rfl⟩
    obtain ⟨hmount, hlatest, htable⟩ := hsame
    rw [exists_erase, if_neg hx]
    refine ⟨hmount, hlatest, ?_⟩
    simp only [erase, Map.insert, htable, List.map_append, List.map_cons, List.map_nil]

/-- **But for the heap**, `open` is that of `FileSystem`. -/
theorem open_erase (h : t.open al disk fuel fp = .ok (fd, u)) :
    ∃ drivers : Mp → FileSystemDriver Unit,
      t.erase.open drivers fuel (CStr.ofBuffer fp) = some (fd, u.erase) := by
  rw [HeapFs.open] at h
  dsimp only at h
  split at h
  · cases h
  next hroute =>
    cases h
    exact ⟨fun _ => returning ⟨0, 0, false⟩, by rw [FileSystem.open, erase, hroute]; rfl⟩
  next mp hroute =>
    obtain ⟨⟨f, heap⟩, -, h⟩ := bind_eq_ok.mp h
    obtain ⟨t', henter, h⟩ := bind_eq_ok.mp h
    dsimp only at h
    split at h
    · cases h
    next found hfound =>
      cases h
      obtain ⟨hmount, hlatest, htable⟩ := enter_erase henter
      have hexists : (file f).exists = found := by rw [file, hfound, Option.getD_some]
      have hrouted : route t.erase.mountpoints (CStr.ofBuffer fp) fuel = some (some mp) := hroute
      have hentered : (if t.erase.fdMapping.exists (toFd t.erase.latestFd) then
          t.erase.fdMapping.assign (toFd t.erase.latestFd) ⟨file f, mp⟩
        else some (t.erase.fdMapping.insert (toFd t.erase.latestFd) ⟨file f, mp⟩)) =
          some u.erase.fdMapping := htable
      refine ⟨fun _ => returning (file f), ?_⟩
      simp only [FileSystem.open, hrouted, returning, hentered, Option.map_some, hexists]
      refine congrArg some (Prod.ext rfl ?_)
      rw [FileSystem.mk.injEq]
      exact ⟨hmount.symm, hlatest.symm, rfl, rfl⟩

/-- And so is `close`. -/
theorem close_erase (drivers : Mp → FileSystemDriver Unit) (h : t.close al fd = .ok u) :
    t.erase.close drivers fd = some u.erase := by
  rw [HeapFs.close] at h
  rw [FileSystem.close]
  split at h
  next h0 =>
    cases h
    exact if_pos h0
  next h0 =>
    rw [if_neg h0, get_erase]
    split at h
    · cases h
    next f hget =>
      obtain ⟨heap, -, h⟩ := bind_eq_ok.mp h
      cases h
      rw [hget, Option.map_some, Option.map_some, rmkey_erase]
      rfl

end HeapFs

end RivOS
