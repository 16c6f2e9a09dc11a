import RivOS.Fs.Fat32Lookup

/-!
# Boot — The bootloader's FAT32 driver

`boot/fs/fs.c` and `boot/fs/fs.h`, with `alloc` of `boot/mem/alloc.h`.  It is a copy of the kernel's
driver with three differences: `creationTime` of a `DirEntry` has one byte instead of two, so what
follows is one byte off and an entry has 31 bytes; `makeFatName` reports no failure, and the search
goes on with what it has put into `outbuf`; and `alloc` gives a block out always and takes none back.

The heap begins at `bootEnd` and is taken to be large enough, as `alloc` takes it to be.

* `boot_serves`: the driver finds what there is in its dialect.
-/

namespace RivOS.Boot

open Fat32 (BootSector.bytesPerSector BootSector.rootDirClusterNum)
open Fat32 (Stuck DirEntry Layout Dialect Looks Serves)

structure Heap where
  heapPtr : Nat
  mem : Mem

/-- `(size + 15) & ~15`, in 32 bits. -/
def alloc (size : Nat) (h : Heap) : Buffer × Heap :=
  (⟨h.heapPtr, load h.mem h.heapPtr size⟩,
    { h with heapPtr := (h.heapPtr + (size + 15) % 2 ^ 32 / 16 * 16) % 2 ^ 32 })

theorem length_alloc (size : Nat) (h : Heap) : (alloc size h).1.bytes.length = size :=
  length_load

/-- A `DirEntry` as `fs.h` declares it. -/
def layout : Layout := ⟨31, 19, 25, 27⟩

def makeFatName (normalName : List UInt8) : List UInt8 := (Fat32.fillFatName normalName).1

section Driver

variable (disk : Disk) (fuel : Nat)

def findDirEntryInDir (startCluster : Nat) (filename : List UInt8) (h : Heap) :
    Except Stuck (Option DirEntry × Heap) := do
  let (clusterBuf, h) := alloc (Fat32.bytesPerCluster disk) h
  let (found, _) ← Fat32.search layout disk (makeFatName filename) fuel startCluster clusterBuf.bytes
  return (found, h)

def resolvePath (fp : List UInt8) (h : Heap) : Except Stuck (Option DirEntry × Heap) :=
  Fat32.resolveWith (findDirEntryInDir disk fuel) disk fp h

def «open» (fp : CStr) (h : Heap) : Except Stuck (Fat32.File × Heap) :=
  let (fd, h) := alloc Fat32.FileData.sizeof h
  if Fat32.isRootPath fp.chars then
    .ok (⟨some (Fat32.FileData.put fd (BootSector.rootDirClusterNum disk) true), 0, true⟩, h)
  else do
    let (dirEntry, h) ← resolvePath disk fuel fp.chars h
    match dirEntry with
    | none => return (⟨some fd, 0, false⟩, h)
    | some e =>
        return (⟨some (Fat32.FileData.put fd (Fat32.clusterOf e) e.isDirectory), e.filesize, true⟩, h)

end Driver

/-- How the bootloader reads a directory: it refuses no component. -/
def dialect : Dialect := ⟨layout, fun comp => some (makeFatName comp)⟩

/-- The bootloader finds what there is in its dialect. -/
theorem boot_serves {disk : Disk} (hbps : BootSector.bytesPerSector disk = 512) :
    Serves (findDirEntryInDir disk) dialect disk fun _ => True where
  complete {c comp r} h := by
    cases h with
    | refused hn => cases hn
    | search hn hf =>
        cases hn
        obtain ⟨n, hsearch⟩ := Fat32.search_of_finds hbps hf
        refine ⟨n, fun fuel hfuel s _ => ?_⟩
        obtain ⟨bytes, hr, -⟩ := hsearch fuel hfuel _ (length_alloc (Fat32.bytesPerCluster disk) s)
        refine ⟨(alloc (Fat32.bytesPerCluster disk) s).2, ?_, trivial⟩
        simp only [findDirEntryInDir]
        rw [show Fat32.search layout disk (makeFatName comp) fuel c _ = .ok (r, bytes) from hr]
        rfl
  sound {fuel c comp s r s'} _ h := by
    obtain ⟨⟨found, bytes⟩, hsearch, h⟩ := bind_eq_ok.mp h
    cases h
    obtain ⟨hf, -⟩ := Fat32.finds_of_search hbps (length_alloc _ s) hsearch
    exact ⟨.search rfl hf, trivial⟩

end RivOS.Boot
